import Mathlib.Data.List.Basic

/-!
# `Lib.Utf8`: bytes in the form of UTF-8

A character is a lead byte and as many continuation bytes as the lead asks for (`IsChar`). A text
is a list of characters (`IsUtf8`). This is the form of UTF-8; which code points there are does
not matter here.

A text that is cut off anywhere is a whole text and a part of one character (`exists_whole_part`),
and the two can be told from its last bytes: no byte of a whole text asks for more bytes than
there are from it on (`leadLen_le_of_isUtf8`), and the lead of the part does.
-/

namespace Utf8

/-- A continuation byte, `10xxxxxx`. -/
def isCont (b : UInt8) : Bool := b &&& 0xC0 = 0x80

/-- How many bytes the character of a lead has; zero for a byte that is no lead. -/
def leadLen (b : UInt8) : Nat :=
  if b &&& 0x80 = 0 then 1
  else if b &&& 0xE0 = 0xC0 then 2
  else if b &&& 0xF0 = 0xE0 then 3
  else if b &&& 0xF8 = 0xF0 then 4
  else 0

/-- The lead and the continuation bytes that it asks for. -/
def IsChar : List UInt8 → Prop
  | [] => False
  | b :: bs => leadLen b = bs.length + 1 ∧ ∀ c ∈ bs, isCont c = true

/-- Characters one after the other. -/
inductive IsUtf8 : List UInt8 → Prop
  | nil : IsUtf8 []
  | append {c bs : List UInt8} (hc : IsChar c) (hbs : IsUtf8 bs) : IsUtf8 (c ++ bs)

theorem IsChar.ne_nil {c : List UInt8} (h : IsChar c) : c ≠ [] := by
  rintro rfl
  exact h

theorem leadLen_le (b : UInt8) : leadLen b ≤ 4 := by
  rw [leadLen]
  split
  · omega
  · split
    · omega
    · split
      · omega
      · split <;> omega

/-- A continuation byte is no lead. -/
theorem leadLen_of_isCont {b : UInt8} (h : isCont b = true) : leadLen b = 0 := by
  rw [isCont, decide_eq_true_iff] at h
  -- each mask keeps the two bits that say so
  have hmask : ∀ m v : UInt8, m &&& 0xC0 = 0xC0 → b &&& m = v → v &&& 0xC0 = 0x80 := by
    intro m v hm hv
    rw [← hv, UInt8.and_assoc, hm, h]
  rw [leadLen, if_neg, if_neg, if_neg, if_neg]
  · exact fun hv => absurd (hmask 0xF8 _ (by decide) hv) (by decide)
  · exact fun hv => absurd (hmask 0xF0 _ (by decide) hv) (by decide)
  · exact fun hv => absurd (hmask 0xE0 _ (by decide) hv) (by decide)
  · intro hv
    have hbit : b &&& 0x80 = (b &&& 0xC0) &&& 0x80 := by
      rw [UInt8.and_assoc]
      congr 1
    rw [hbit, h] at hv
    exact absurd hv (by decide)

/-- A part of a character: what is there of it asks for more. -/
def IsPart (part : List UInt8) : Prop :=
  ∃ c, IsChar c ∧ part <+: c ∧ part.length < c.length

theorem isPart_nil : IsPart [] :=
  ⟨[0], ⟨by decide, by simp⟩, List.nil_prefix, by decide⟩

/-- A text that is cut off is a whole text and a part of a character. -/
theorem exists_whole_part {xs ys : List UInt8} (h : IsUtf8 (xs ++ ys)) :
    ∃ whole part, xs = whole ++ part ∧ IsUtf8 whole ∧ IsPart part := by
  generalize hzs : xs ++ ys = zs at h
  induction h generalizing xs with
  | nil =>
    have hnil := (List.append_eq_nil_iff.mp hzs).1
    exact ⟨[], [], by rw [hnil]; rfl, .nil, isPart_nil⟩
  | @append c bs hc hbs ih =>
    by_cases hlen : xs.length < c.length
    · -- the cut is in the first character
      have hprefix : xs <+: c := by
        refine List.prefix_of_prefix_length_le ⟨ys, hzs⟩ (List.prefix_append c bs) (by omega)
      exact ⟨[], xs, rfl, .nil, c, hc, hprefix, hlen⟩
    · obtain ⟨xs', rfl⟩ : c <+: xs :=
        List.prefix_of_prefix_length_le (List.prefix_append c bs) ⟨ys, hzs⟩ (by omega)
      rw [List.append_assoc, List.append_cancel_left_eq] at hzs
      obtain ⟨whole, part, rfl, hwhole, hpart⟩ := ih hzs
      exact ⟨c ++ whole, part, by rw [List.append_assoc], .append hc hwhole, hpart⟩

/-- No byte of a whole text asks for more bytes than there are from it on. -/
theorem leadLen_le_of_isUtf8 {bs : List UInt8} (h : IsUtf8 bs) {i : Nat} (hi : i < bs.length) :
    leadLen bs[i] ≤ bs.length - i := by
  induction h generalizing i with
  | nil => exact absurd hi (Nat.not_lt_zero i)
  | @append c bs hc hbs ih =>
    by_cases hin : i < c.length
    · rw [List.getElem_append_left hin, List.length_append]
      cases c with
      | nil => exact absurd rfl hc.ne_nil
      | cons b cs =>
        cases i with
        | zero =>
          rw [List.getElem_cons_zero, hc.1, List.length_cons]
          omega
        | succ i =>
          rw [List.getElem_cons_succ, leadLen_of_isCont (hc.2 _ (List.getElem_mem _))]
          exact Nat.zero_le _
    · rw [List.length_append] at hi
      rw [List.getElem_append_right (by omega), List.length_append]
      have := ih (i := i - c.length) (by omega)
      omega

/-- The bytes of a part: a lead that asks for more, and continuation bytes. -/
theorem IsPart.cons {b : UInt8} {bs : List UInt8} (h : IsPart (b :: bs)) :
    bs.length + 1 < leadLen b ∧ ∀ c ∈ bs, isCont c = true := by
  obtain ⟨c, hc, hprefix, hlen⟩ := h
  cases c with
  | nil => exact absurd rfl hc.ne_nil
  | cons b' cs =>
    obtain ⟨rfl, hcs⟩ := List.cons_prefix_cons.mp hprefix
    refine ⟨?_, fun x hx => hc.2 x (hcs.subset hx)⟩
    rw [hc.1]
    simpa using hlen

end Utf8
