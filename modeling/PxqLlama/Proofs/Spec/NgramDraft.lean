import PxqLlama.Lib.Attempt
import PxqLlama.Spec.NgramCache

/-!
# `Proofs.Spec.NgramDraft`: which tokens a draft reads

An n-gram of the last tokens is there when the history and the draft have so many tokens
(`lastNgram_ok`). With a start before the history the index wraps, and the read is outside of both
lists (`lastNgram_error`). The first round reads n-grams of up to `ngram_max` tokens of the history
alone, but only `LLAMA_NGRAM_STATIC` of them are checked to be there.
-/

namespace PxqLlama.Spec

open UnorderedMap

/-! ### Reads -/

section
variable {α β : Type} {f : α → Except DraftFault β}

theorem mapM_ok {l : List α} (h : ∀ a ∈ l, ∃ b, f a = .ok b) : ∃ bs, l.mapM f = .ok bs := by
  induction l with
  | nil => exact ⟨[], rfl⟩
  | cons a l ih =>
    obtain ⟨b, hb⟩ := h a List.mem_cons_self
    obtain ⟨bs, hbs⟩ := ih fun a ha => h a (List.mem_cons_of_mem _ ha)
    refine ⟨b :: bs, ?_⟩
    rw [List.mapM_cons, hb, hbs]
    rfl

/-- One element that fails makes the whole list fail. -/
theorem mapM_ne_ok {l : List α} {a : α} (ha : a ∈ l) (hfail : ∀ b, f a ≠ .ok b) (bs : List β) :
    l.mapM f ≠ .ok bs := by
  induction l generalizing bs with
  | nil => cases ha
  | cons a' l ih =>
    rw [List.mapM_cons]
    intro hok
    cases hfirst : f a' with
    | error e =>
      rw [hfirst] at hok
      cases hok
    | ok b =>
      rw [hfirst] at hok
      cases ha with
      | head => exact hfail b hfirst
      | tail _ ha =>
        cases hrest : l.mapM f with
        | error e =>
          rw [hrest] at hok
          cases hok
        | ok bs' => exact ih ha bs' hrest

end

theorem toInt_of_lt {z : Int} (hlo : -2 ^ 31 ≤ z) (hhi : z < 2 ^ 31) : toInt z = z :=
  Int.bmod_eq_of_le (by omega) (by omega)

variable {ngramSize : Nat}

section
variable {inp draft : List Token}

/-- The tokens that are there: those of the history, and those of the draft behind its first. -/
theorem getToken_ok {z : Int} (hlo : 0 ≤ z) (hhi : z < inp.length + draft.length - 1)
    (hsize : (inp.length + draft.length : Int) ≤ 2 ^ 32) :
    ∃ token, getToken inp draft (toSize z) = .ok token := by
  have hindex : (toSize z : Int) = z := by
    rw [toSize]
    omega
  rw [getToken]
  by_cases hin : toSize z < inp.length
  · rw [if_pos hin, List.getElem?_eq_getElem hin]
    exact ⟨_, rfl⟩
  · rw [if_neg hin]
    have hdraft : toSize (1 + (toSize z : Int) - inp.length) < draft.length := by
      rw [toSize]
      omega
    rw [List.getElem?_eq_getElem hdraft]
    exact ⟨_, rfl⟩

/-- An index before the history wraps. -/
theorem getToken_error {z : Int} (hlo : -2 ^ 32 ≤ z) (hhi : z < 0)
    (hsize : (inp.length + draft.length : Int) ≤ 2 ^ 32) (hinp : 0 < inp.length) (token : Token) :
    getToken inp draft (toSize z) ≠ .ok token := by
  have hindex : (toSize z : Int) = 2 ^ 64 + z := by
    rw [toSize]
    omega
  rw [getToken, if_neg (by omega)]
  have hdraft : draft.length ≤ toSize (1 + (toSize z : Int) - inp.length) := by
    rw [hindex, toSize]
    omega
  rw [List.getElem?_eq_none hdraft]
  exact fun hcontra => nomatch hcontra

/-- The start of an n-gram, without conversions. -/
theorem ngramStart_eq (hdraft : 1 ≤ draft.length)
    (hsize : (inp.length + draft.length : Int) ≤ 2 ^ 31) (hgram : ngramSize ≤ llamaNgramMax) :
    toInt (toInt inp.length - ngramSize + draft.length - 1)
      = inp.length - ngramSize + draft.length - 1 := by
  have hmax : (ngramSize : Int) ≤ 4 := Int.ofNat_le.mpr hgram
  rw [toInt_of_lt (z := inp.length) (by omega) (by omega)]
  exact toInt_of_lt (by omega) (by omega)

theorem lastNgram_ok (hdraft : 1 ≤ draft.length)
    (hsize : (inp.length + draft.length : Int) ≤ 2 ^ 31) (hgram : ngramSize ≤ llamaNgramMax)
    (hlong : ngramSize ≤ inp.length) : ∃ ngram, lastNgram inp draft ngramSize = .ok ngram := by
  have htokens : ∃ tokens, ((List.range ngramSize).mapM fun (k : Nat) =>
      getToken inp draft (toSize (toInt (toInt inp.length - ngramSize + draft.length - 1) + k)))
      = .ok tokens := by
    apply mapM_ok
    intro k hk
    rw [List.mem_range] at hk
    rw [ngramStart_eq hdraft hsize hgram]
    exact getToken_ok (by omega) (by omega) (by omega)
  obtain ⟨tokens, htokens⟩ := htokens
  refine ⟨commonNgram tokens ngramSize, ?_⟩
  rw [lastNgram, htokens]
  rfl

theorem lastNgram_error (hdraft : draft.length = 1)
    (hsize : (inp.length + draft.length : Int) ≤ 2 ^ 31) (hgram : ngramSize ≤ llamaNgramMax)
    (hinp : 0 < inp.length) (hshort : inp.length < ngramSize) (ngram : CommonNgram) :
    lastNgram inp draft ngramSize ≠ .ok ngram := by
  have hmax : (ngramSize : Int) ≤ 4 := Int.ofNat_le.mpr hgram
  intro hok
  rw [lastNgram, ngramStart_eq (Nat.le_of_eq hdraft.symm) hsize hgram] at hok
  obtain ⟨tokens, htokens, -⟩ := Attempt.bind_eq_ok.mp hok
  apply mapM_ne_ok (List.mem_range.mpr (by omega : 0 < ngramSize)) _ tokens htokens
  exact getToken_error (by omega) (by omega) (by omega) hinp

end

/-! ### The loop -/

section
variable {caches : NgramCaches} {nDraft : Int} {ngramMin ngramMax : Nat} {inp draft : List Token}

theorem mem_sizes (hmem : ngramSize ∈ List.range' ngramMin (ngramMax + 1 - ngramMin)) :
    ngramSize ≤ ngramMax := by
  rw [List.mem_range'_1] at hmem
  omega

theorem draftToken_ok (hdraft : 1 ≤ draft.length)
    (hsize : (inp.length + draft.length : Int) ≤ 2 ^ 31) (hmax : ngramMax ≤ llamaNgramMax)
    (hstatic : llamaNgramStatic ≤ inp.length) (hlong : ngramMax ≤ inp.length) :
    ∃ token, draftToken caches ngramMin ngramMax inp draft = .ok token := by
  obtain ⟨ngramStatic, hngram⟩ :=
    lastNgram_ok hdraft hsize (show llamaNgramStatic ≤ llamaNgramMax by decide) hstatic
  have hcd : ∃ ngrams, (List.range' ngramMin (ngramMax + 1 - ngramMin)).mapM
      (lastNgram inp draft) = .ok ngrams := by
    apply mapM_ok
    intro ngramSize hmem
    have hle : ngramSize ≤ ngramMax := mem_sizes hmem
    exact lastNgram_ok hdraft hsize (by omega) (by omega)
  obtain ⟨ngrams, hcd⟩ := hcd
  rw [draftToken, hngram]
  show ∃ token, ((List.range' ngramMin (ngramMax + 1 - ngramMin)).mapM (lastNgram inp draft) >>= _)
    = .ok token
  rw [hcd]
  exact ⟨_, rfl⟩

/-- The rounds that are left are enough for the loop to end by its condition. -/
theorem draftLoop_ok (rounds : Nat) (hmax : ngramMax ≤ llamaNgramMax)
    (hstatic : llamaNgramStatic ≤ inp.length) (hlong : ngramMax ≤ inp.length)
    (hint : inp.length + nDraft < 2 ^ 31) (hdraft : 1 ≤ draft.length)
    (hle : (draft.length : Int) ≤ nDraft + 1) (hrounds : nDraft ≤ draft.length - 1 + rounds) :
    ∃ out, draftLoop caches nDraft ngramMin ngramMax inp rounds draft = .ok out ∧
      (out.length : Int) ≤ nDraft + 1 := by
  have htwo : 2 ≤ inp.length := hstatic
  induction rounds generalizing draft with
  | zero =>
    refine ⟨draft, ?_, hle⟩
    rw [draftLoop, toInt_of_lt (by omega) (by omega), if_neg (by omega)]
  | succ rounds ih =>
    rw [draftLoop, toInt_of_lt (by omega) (by omega)]
    split
    · rename_i hmore
      obtain ⟨token, htoken⟩ : ∃ token, draftToken caches ngramMin ngramMax inp draft = .ok token :=
        draftToken_ok hdraft
        (by omega) hmax hstatic hlong
      rw [htoken]
      show ∃ out, (if token = llamaTokenNull then pure draft
          else draftLoop caches nDraft ngramMin ngramMax inp rounds (draft ++ [token])) = .ok out ∧ _
      split
      · exact ⟨draft, rfl, hle⟩
      · have hlength : (draft ++ [token]).length = draft.length + 1 := List.length_append
        exact ih (by omega) (by omega) (by omega)
    · exact ⟨draft, rfl, hle⟩

/-- The first round reads an n-gram that the history is too short for. -/
theorem draftLoop_error (hmin : ngramMin ≤ ngramMax) (hmax : ngramMax ≤ llamaNgramMax)
    (hint : inp.length + nDraft < 2 ^ 31) (hdraft : draft.length = 1) (hmore : 0 < nDraft)
    (hinp : 0 < inp.length) (hshort : inp.length < ngramMax) (rounds : Nat) (out : List Token) :
    draftLoop caches nDraft ngramMin ngramMax inp rounds draft ≠ .ok out := by
  intro hok
  cases rounds with
  | zero =>
    rw [draftLoop, toInt_of_lt (by omega) (by omega), if_pos (by omega)] at hok
    cases hok
  | succ rounds =>
    rw [draftLoop, toInt_of_lt (by omega) (by omega), if_pos (by omega)] at hok
    obtain ⟨token, htoken, -⟩ := Attempt.bind_eq_ok.mp hok
    obtain ⟨ngramStatic, -, hrest⟩ := Attempt.bind_eq_ok.mp htoken
    obtain ⟨ngrams, hngrams, -⟩ := Attempt.bind_eq_ok.mp hrest
    have hmem : ngramMax ∈ List.range' ngramMin (ngramMax + 1 - ngramMin) := by
      rw [List.mem_range'_1]
      omega
    exact mapM_ne_ok hmem (lastNgram_error hdraft (by omega) hmax hinp hshort) ngrams hngrams

end

/-- Every token that a draft reads is there, and the loop ends with at most `n_draft + 1` tokens,
exactly when nothing is drafted or the history has the tokens of the longest n-gram. -/
theorem commonNgramCacheDraft_iff (caches : NgramCaches) (inp draft : List Token) (nDraft : Int)
    (ngramMin ngramMax : Nat) (hdraft : draft.length = 1) (hpos : 0 ≤ nDraft)
    (hle : ngramMin ≤ ngramMax) (hmax : ngramMax ≤ llamaNgramMax)
    (hint : inp.length + nDraft < 2 ^ 31) :
    (∃ out, commonNgramCacheDraft caches inp draft nDraft ngramMin ngramMax = .ok out ∧
        (out.length : Int) ≤ nDraft + 1) ↔
      nDraft = 0 ∨ inp.length < llamaNgramStatic ∨ ngramMax ≤ inp.length := by
  have hstatic : (llamaNgramStatic : Int) = 2 := rfl
  rw [commonNgramCacheDraft, if_neg (not_not_intro hdraft), toInt_of_lt (by omega) (by omega)]
  by_cases hshort : inp.length < llamaNgramStatic
  · rw [if_pos (Int.ofNat_lt.mpr hshort)]
    constructor
    · intro _
      exact Or.inr (Or.inl hshort)
    · intro _
      exact ⟨draft, rfl, by omega⟩
  · rw [if_neg (fun hlt => hshort (Int.ofNat_lt.mp hlt))]
    constructor
    · intro hok
      obtain ⟨out, hout, -⟩ := hok
      by_contra hnot
      simp only [not_or] at hnot
      exact draftLoop_error hle hmax hint hdraft (by omega) (by omega) (by omega) _ out hout
    · intro hcond
      rcases hcond with hzero | hlt | hlong
      · refine ⟨draft, ?_, by omega⟩
        rw [hzero, Int.toNat_zero, draftLoop, toInt_of_lt (by omega) (by omega), if_neg (by omega)]
      · exact absurd hlt hshort
      · exact draftLoop_ok _ hmax (by omega) hlong hint (by omega) (by omega) (by omega)

/-- A cache that drafts 5 behind 4, and 6 behind 5. -/
def drafting : CommonNgramCache :=
  emplace (emplace ∅ (commonNgram [4] 1) (emplace ∅ 5 2)) (commonNgram [5] 1) (emplace ∅ 6 2)

/-- Four tokens are enough for the sizes that the server drafts with. -/
theorem commonNgramCacheDraft_iff_four :
    ∃ out, commonNgramCacheDraft ⟨drafting, ∅, ∅⟩ [1, 2, 3, 4] [4] 8 1 4 = .ok out ∧
      (out.length : Int) ≤ 8 + 1 :=
  (commonNgramCacheDraft_iff ⟨drafting, ∅, ∅⟩ [1, 2, 3, 4] [4] 8 1 4 rfl (by decide) (by decide)
    (by decide) (by decide)).mpr (by decide)

/-- In the second round the n-grams end with the drafted token, and the third one drafts nothing. -/
example : commonNgramCacheDraft ⟨drafting, ∅, ∅⟩ [1, 2, 3, 4] [4] 8 1 4 = .ok [4, 5, 6] := by
  decide

/-- Two tokens pass the check for the static n-gram, and the draft reads in front of them. -/
theorem commonNgramCacheDraft_two :
    commonNgramCacheDraft ⟨∅, ∅, ∅⟩ [5, 6] [6] 1 1 4 = .error .outOfRange := by
  decide

end PxqLlama.Spec
