import PxqLlama.Lib.Occurrences
import PxqLlama.Sampling.ReasoningBudget

/-!
# `Proofs.Sampling.TokenMatcher`: which tags the streaming matcher finds

`TokenMatcher.advance` keeps the length of one overlap of the tag with what was read. On a
mismatch it falls back to the first token of the tag only, not to the longest border of what was
matched.

* `advances_eq_reports`: for a `Regular` tag no longer border can match, so the kept overlap is
  always the longest one (`Longest`), and the reports are those of the leftmost occurrences.
* `not_mem_advances`: for any other tag there is a stream that ends with the tag and on which
  nothing is reported.
-/

namespace PxqLlama.Sampling.TokenMatcher

open Occurrences

/-- What `advance` returns for each token of a stream. -/
def advances : TokenMatcher → List LlamaToken → List Bool
  | _, [] => []
  | m, token :: stream => (m.advance token).1 :: advances (m.advance token).2 stream

/-! ### One token -/

section
variable {m : TokenMatcher} {token : LlamaToken}

theorem pos_lt (hne : m.tokens ≠ []) : m.pos < m.tokens.length := by
  rcases m.inRange with hnil | hlt
  · exact absurd hnil hne
  · exact hlt

/-- What one token does to a matcher with tokens: it is matched, as the last one or before it, or
it is not, and then it may be the first one. -/
theorem advance_spec (token : LlamaToken) (hne : m.tokens ≠ []) :
    (m.tokens[m.pos]? = some token ∧ m.pos + 1 < m.tokens.length ∧ (m.advance token).1 = false ∧
        (m.advance token).2.pos = m.pos + 1) ∨
      (m.tokens[m.pos]? = some token ∧ m.pos + 1 = m.tokens.length ∧ (m.advance token).1 = true ∧
        (m.advance token).2.pos = 0) ∨
      (m.tokens[m.pos]? ≠ some token ∧ (m.advance token).1 = false ∧
        (m.advance token).2.pos = if m.tokens[0]? = some token then 1 else 0) := by
  have hpos : m.pos < m.tokens.length := pos_lt hne
  rw [advance, dif_neg hne]
  split
  · rename_i hmatch
    split
    · rename_i hnext
      exact Or.inl ⟨hmatch, hnext, rfl, rfl⟩
    · exact Or.inr (Or.inl ⟨hmatch, by omega, rfl, rfl⟩)
  · rename_i hmiss
    split
    · exact Or.inr (Or.inr ⟨hmiss, rfl, rfl⟩)
    · exact Or.inr (Or.inr ⟨hmiss, rfl, rfl⟩)

theorem tokens_advance : (m.advance token).2.tokens = m.tokens := by
  rw [advance]
  split
  · rfl
  · split <;> split <;> rfl

end

/-! ### Tags for which the first token is the only border to fall back to -/

/-- The matcher keeps the longest overlap of its tag with what was read. -/
structure Longest (m : TokenMatcher) (acc : List LlamaToken) : Prop where
  overlap : Overlap m.tokens acc m.pos
  longest : ∀ j, j < m.tokens.length → Overlap m.tokens acc j → j ≤ m.pos

variable {m : TokenMatcher}

theorem longest_start (hpos : m.pos = 0) : Longest m [] where
  overlap := by
    rw [hpos]
    exact overlap_zero _ _
  longest j hj hover := by
    have hlen := hover.length_le
    rw [List.length_take, List.length_nil] at hlen
    omega

section
variable {m : TokenMatcher} {acc : List LlamaToken} {token : LlamaToken}

/-- One token makes the longest overlap longer by one at most. -/
theorem Longest.le_succ (h : Longest m acc) {j : Nat} (hj : j < m.tokens.length)
    (hover : Overlap m.tokens (acc ++ [token]) j) : j ≤ m.pos + 1 := by
  cases j with
  | zero => omega
  | succ j =>
    have hbefore := ((overlap_succ (by omega)).mp hover).1
    have hle := h.longest j (by omega) hbefore
    omega

/-- After a mismatch the only overlap that is left is that of the first token: a longer one would
match what stands at the mismatch too. -/
theorem Longest.missed (h : Longest m acc) (hregular : Regular m.tokens) (hne : m.tokens ≠ [])
    (hmiss : m.tokens[m.pos]? ≠ some token) {j : Nat} (hj : j < m.tokens.length)
    (hover : Overlap m.tokens (acc ++ [token]) (j + 1)) : j = 0 := by
  obtain ⟨hbefore, hnext⟩ := (overlap_succ hj).mp hover
  have hle : j ≤ m.pos := h.longest j hj hbefore
  by_contra hpositive
  have hneq : j ≠ m.pos := by
    intro heq
    rw [heq] at hnext
    exact hmiss hnext
  have hborder : m.tokens.take j <:+ m.tokens.take m.pos := hbefore.take_suffix h.overlap hle
  have hsame := hregular m.pos j (by omega) (by omega) (pos_lt hne) hborder
  exact hmiss (hsame ▸ hnext)

/-- A token is reported exactly when it completes the tag. -/
theorem Longest.reports_iff (h : Longest m acc) (token : LlamaToken)
    (hregular : Regular m.tokens) (hne : m.tokens ≠ []) :
    (m.advance token).1 = true ↔ m.tokens <:+ acc ++ [token] := by
  have hpos : m.pos < m.tokens.length := pos_lt hne
  rw [← overlap_length]
  obtain ⟨last, hlast⟩ : ∃ last, m.tokens.length = last + 1 := ⟨m.tokens.length - 1, by omega⟩
  rw [hlast]
  rcases advance_spec token hne with hmore | hdone | hmiss
  · obtain ⟨hmatch, hlt, hfalse, -⟩ := hmore
    rw [hfalse]
    constructor
    · intro hcontra
      cases hcontra
    · intro hover
      have hbefore := ((overlap_succ (by omega)).mp hover).1
      have hle := h.longest last (by omega) hbefore
      omega
  · obtain ⟨hmatch, hend, htrue, -⟩ := hdone
    rw [htrue]
    have heq : m.pos = last := by omega
    constructor
    · intro _
      apply (overlap_succ (by omega)).mpr
      exact ⟨heq ▸ h.overlap, heq ▸ hmatch⟩
    · intro _
      rfl
  · obtain ⟨hmatch, hfalse, -⟩ := hmiss
    rw [hfalse]
    constructor
    · intro hcontra
      cases hcontra
    · intro hover
      have hzero := h.missed hregular hne hmatch (by omega) hover
      -- The tag is its first token, which is where the mismatch was.
      have hnext := ((overlap_succ (by omega)).mp hover).2
      have heq : m.pos = last := by omega
      rw [heq] at hmatch
      exact absurd hnext hmatch

/-- The kept overlap is the longest one after a token that is not reported. -/
theorem Longest.advance (h : Longest m acc) (hregular : Regular m.tokens) (hne : m.tokens ≠ [])
    (hfalse : (m.advance token).1 = false) : Longest (m.advance token).2 (acc ++ [token]) := by
  have hpos : m.pos < m.tokens.length := pos_lt hne
  rcases advance_spec token hne with hmore | hdone | hmiss
  · obtain ⟨hmatch, hlt, -, hnew⟩ := hmore
    constructor
    · rw [tokens_advance, hnew]
      exact (overlap_succ hpos).mpr ⟨h.overlap, hmatch⟩
    · rw [tokens_advance, hnew]
      intro j hj hover
      exact h.le_succ hj hover
  · rw [hdone.2.2.1] at hfalse
    cases hfalse
  · obtain ⟨hmatch, -, hnew⟩ := hmiss
    constructor
    · rw [tokens_advance, hnew]
      split
      · rename_i hfirst
        exact (overlap_succ (by omega)).mpr ⟨overlap_zero _ _, hfirst⟩
      · exact overlap_zero _ _
    · rw [tokens_advance, hnew]
      intro j hj hover
      cases j with
      | zero => exact Nat.zero_le _
      | succ j =>
        have hzero := h.missed hregular hne hmatch (by omega) hover
        rw [hzero] at hover
        rw [if_pos ((overlap_succ (by omega)).mp hover).2, hzero]

/-- The reports on a whole stream, from any overlap that is the longest. -/
theorem Longest.advances_eq (stream : List LlamaToken) (h : Longest m acc)
    (hregular : Regular m.tokens) (hne : m.tokens ≠ []) :
    m.advances stream = reports m.tokens acc stream := by
  induction stream generalizing m acc with
  | nil => rfl
  | cons token stream ih =>
    rw [advances, reports]
    have htokens : (m.advance token).2.tokens = m.tokens := tokens_advance
    have hiff := h.reports_iff token hregular hne
    split
    · rename_i hdone
      have htrue := hiff.mpr hdone
      have hzero : (m.advance token).2.pos = 0 := by
        rcases advance_spec token hne with hmore | hdone | hmiss
        · rw [hmore.2.2.1] at htrue
          cases htrue
        · exact hdone.2.2.2
        · rw [hmiss.2.1] at htrue
          cases htrue
      rw [htrue, ih (longest_start hzero) (htokens ▸ hregular) (htokens ▸ hne), htokens]
    · rename_i hnot
      have hfalse : (m.advance token).1 = false := by
        rw [← Bool.not_eq_true, hiff]
        exact hnot
      rw [hfalse, ih (h.advance hregular hne hfalse) (htokens ▸ hregular) (htokens ▸ hne), htokens]

end

variable {tag : List LlamaToken}

theorem advances_eq_reports (hne : tag ≠ []) (hregular : Regular tag) (stream : List LlamaToken) :
    (ofTokens tag).advances stream = reports tag [] stream :=
  Longest.advances_eq stream (longest_start rfl) hregular hne

/-! ### Tags that are lost -/

/-- Too few tokens are left to complete the tag. -/
theorem not_mem_of_short (stream : List LlamaToken) (hne : m.tokens ≠ [])
    (hshort : m.pos + stream.length < m.tokens.length) : true ∉ m.advances stream := by
  induction stream generalizing m with
  | nil => exact List.not_mem_nil
  | cons token stream ih =>
    rw [List.length_cons] at hshort
    have htokens : (m.advance token).2.tokens = m.tokens := tokens_advance
    have hstep : (m.advance token).1 = false ∧ (m.advance token).2.pos ≤ m.pos + 1 := by
      rcases advance_spec token hne with hmore | hdone | hmiss
      · exact ⟨hmore.2.2.1, by omega⟩
      · omega
      · refine ⟨hmiss.2.1, ?_⟩
        rw [hmiss.2.2]
        split <;> omega
    rw [advances, hstep.1, List.mem_cons, not_or]
    refine ⟨Bool.noConfusion, ih (htokens ▸ hne) ?_⟩
    rw [htokens]
    omega

/-- The matcher reads a part of its tag, one token after another. -/
theorem not_mem_of_matched (part : List LlamaToken) (hne : m.tokens ≠ []) (rest : List LlamaToken)
    (hpart : part <+: m.tokens.drop m.pos) (hlen : m.pos + part.length < m.tokens.length)
    (hrest : ∀ m' : TokenMatcher, m'.tokens = m.tokens → m'.pos = m.pos + part.length →
      true ∉ m'.advances rest) : true ∉ m.advances (part ++ rest) := by
  induction part generalizing m with
  | nil => exact hrest m rfl rfl
  | cons token part ih =>
    have htokens : (m.advance token).2.tokens = m.tokens := tokens_advance
    rw [List.length_cons] at hlen
    rw [List.drop_eq_getElem_cons (by omega), List.cons_prefix_cons] at hpart
    have hmatch : m.tokens[m.pos]? = some token := by
      rw [List.getElem?_eq_getElem (by omega), hpart.1]
    rcases advance_spec token hne with hmore | hdone | hmiss
    · obtain ⟨-, -, hfalse, hnew⟩ := hmore
      rw [List.cons_append, advances, hfalse, List.mem_cons, not_or]
      refine ⟨Bool.noConfusion, ih (htokens ▸ hne) ?_ ?_ ?_⟩
      · rw [htokens, hnew]
        exact hpart.2
      · rw [htokens, hnew]
        omega
      · intro m' htokens' hpos'
        apply hrest m' (htokens'.trans htokens)
        rw [hpos', hnew, List.length_cons]
        omega
    · omega
    · exact absurd hmatch hmiss.1

/-- The stream that leaves a prefix of the tag for the tag behind a border of the prefix. -/
def overlapping (tag : List LlamaToken) (k b : Nat) : List LlamaToken :=
  tag.take k ++ tag.drop b

theorem suffix_overlapping {k b : Nat} (hborder : tag.take b <:+ tag.take k) :
    tag <:+ overlapping tag k b := by
  obtain ⟨front, heq⟩ := hborder
  refine ⟨front, ?_⟩
  show front ++ tag = tag.take k ++ tag.drop b
  rw [← heq, List.append_assoc, List.take_append_drop]

/-- When a border has another continuation than the prefix it ends, the mismatch behind the prefix
leaves the matcher with less than the border, and it reaches the end of the stream too early. -/
theorem not_mem_advances {k b : Nat} (hb : 0 < b) (hk : b < k) (hlen : k < tag.length)
    (hother : tag[b]? ≠ tag[k]?) : true ∉ (ofTokens tag).advances (overlapping tag k b) := by
  have hne : tag ≠ [] := List.ne_nil_of_length_pos (by omega)
  have hpart : (tag.take k).length = k := by
    rw [List.length_take]
    omega
  apply not_mem_of_matched (tag.take k) hne
  · show tag.take k <+: tag.drop 0
    exact List.take_prefix k tag
  · show 0 + (tag.take k).length < tag.length
    omega
  · intro m' htokens hpos
    change m'.tokens = tag at htokens
    change m'.pos = 0 + (tag.take k).length at hpos
    have hdrop : tag.drop b = tag[b] :: tag.drop (b + 1) := List.drop_eq_getElem_cons (by omega)
    have htokens' : (m'.advance tag[b]).2.tokens = tag := tokens_advance.trans htokens
    have hmiss : m'.tokens[m'.pos]? ≠ some tag[b] := by
      rw [htokens, hpos, hpart, Nat.zero_add, ← List.getElem?_eq_getElem (by omega : b < tag.length)]
      exact hother.symm
    have hstep : (m'.advance tag[b]).1 = false ∧ (m'.advance tag[b]).2.pos ≤ 1 := by
      rcases advance_spec tag[b] (show m'.tokens ≠ [] from htokens ▸ hne) with hmore | hdone | hmissed
      · exact absurd hmore.1 hmiss
      · exact absurd hdone.1 hmiss
      · refine ⟨hmissed.2.1, ?_⟩
        rw [hmissed.2.2]
        split <;> omega
    rw [hdrop, advances, hstep.1, List.mem_cons, not_or]
    have hne' : (m'.advance tag[b]).2.tokens ≠ [] := by
      rw [htokens']
      exact hne
    refine ⟨Bool.noConfusion, not_mem_of_short _ hne' ?_⟩
    rw [htokens', List.length_drop]
    omega

/-- The reported tokens are the last ones of the leftmost occurrences that do not overlap, on
every stream, exactly for the tags in which a mismatch never leaves a border to go on from. -/
theorem advances_eq_reports_iff (tag : List LlamaToken) (hne : tag ≠ []) :
    (∀ stream, (ofTokens tag).advances stream = reports tag [] stream) ↔ Regular tag := by
  constructor
  · intro hall k b hb hk hlen hborder
    by_contra hother
    have hlost := not_mem_advances hb hk hlen hother
    rw [hall] at hlost
    apply hlost
    apply mem_reports
    · intro hnil
      exact hne (List.suffix_nil.mp hnil)
    · rw [List.nil_append]
      exact suffix_overlapping hborder
  · intro hregular stream
    exact advances_eq_reports hne hregular stream

/-- A tag with a repeated first token in front of another one is lost behind a third. -/
theorem advances_eq_reports_iff_repeated :
    ([1, 1, 2] : List LlamaToken) ≠ [] ∧
      ¬ ∀ stream, (ofTokens [1, 1, 2]).advances stream = reports [1, 1, 2] [] stream := by
  refine ⟨by decide, ?_⟩
  rw [advances_eq_reports_iff [1, 1, 2] (by decide)]
  decide

/-- `advance` misses the tag at the end of this stream. -/
theorem lost_tag :
    (ofTokens [1, 1, 2]).advances [1, 1, 1, 2] = [false, false, false, false] ∧
      reports ([1, 1, 2] : List LlamaToken) [] [1, 1, 1, 2] = [false, false, false, true] := by
  decide

end PxqLlama.Sampling.TokenMatcher
