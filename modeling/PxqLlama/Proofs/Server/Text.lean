import Mathlib.Data.List.GetD
import PxqLlama.Server.Emit
import PxqLlama.Lib.Utf8

/-!
# `Proofs.Server.Text`: the searches in a text

What `validateUtf8`, `findFrom`, `stringFindPartialStop` and `findStoppingStrings` return, in
terms of the text: a character that is cut off at the end (`validateUtf8_lt_iff`), the first
place of a word (`findFrom_eq_some`), and the stop word that comes first (`StopAt`).
-/

namespace PxqLlama.Server

open Utf8

/-- The text of tokens. -/
def pieces (ts : List TokenOutput) : Bytes := ts.flatMap (·.textToSend)

/-! ### A character that is cut off -/

/-- The text of a final response: without a character that is cut off. -/
def visible (text : Bytes) : Bytes := text.take (validateUtf8 text)

theorem validateUtf8_le (text : Bytes) : validateUtf8 text ≤ text.length := by
  rw [validateUtf8]
  split
  · exact Nat.sub_le _ _
  · exact Nat.le_refl _

/-- A lead that is cut off is cut off nearer to the end too. -/
theorem startsCut_mono {c : UInt8} {i j : Nat} (hij : i ≤ j) (h : startsCut c j = true) :
    startsCut c i = true := by
  simp only [startsCut] at h ⊢
  split_ifs at h ⊢ <;> simp only [decide_eq_true_iff] at h ⊢ <;> omega

variable {text : Bytes} {words : List Bytes}

/-- Where the character that is cut off begins. -/
theorem validateUtf8_lt_cases (h : validateUtf8 text < text.length) :
    ∃ i, 1 ≤ i ∧ i ≤ text.length ∧ i ≤ 4 ∧ validateUtf8 text = text.length - i ∧
      startsCut (text.getD (text.length - i) 0) i = true := by
  rw [validateUtf8] at h ⊢
  split at h
  · rename_i i hi
    have hmem := List.mem_of_find?_eq_some hi
    rw [List.mem_range'_1] at hmem
    exact ⟨i, hmem.1, by omega, by omega, rfl,
      List.find?_some (p := fun i => startsCut (text.getD (text.length - i) 0) i) hi⟩
  · omega

/-- A text is cut exactly when its last character begins in the last four bytes. -/
theorem validateUtf8_lt_iff :
    validateUtf8 text < text.length ↔ ∃ i, 1 ≤ i ∧ i ≤ text.length ∧ i ≤ 4 ∧
      startsCut (text.getD (text.length - i) 0) i = true := by
  constructor
  · intro h
    obtain ⟨i, hpos, hle, hfour, -, hcut⟩ := validateUtf8_lt_cases h
    exact ⟨i, hpos, hle, hfour, hcut⟩
  · rintro ⟨i, hpos, hle, hfour, hcut⟩
    rw [validateUtf8]
    split
    · rename_i j hj
      have hmem := List.mem_of_find?_eq_some hj
      rw [List.mem_range'_1] at hmem
      omega
    · rename_i hnone
      rw [List.find?_eq_none] at hnone
      exact absurd hcut (hnone i (List.mem_range'_1.mpr ⟨hpos, by omega⟩))

/-- A byte that starts a character which needs more than `i` bytes. -/
theorem startsCut_iff {c : UInt8} {i : Nat} (hi : 1 ≤ i) :
    startsCut c i = true ↔ i < leadLen c := by
  rw [startsCut, leadLen]
  by_cases hascii : c &&& 0x80 = 0
  · -- the masks of the longer characters keep the bit that is not set
    have hmask : ∀ m v : UInt8, m &&& 0x80 = 0x80 → c &&& m = v → v &&& 0x80 = 0 := by
      intro m v hm hv
      rw [← hv, UInt8.and_assoc, hm, hascii]
    rw [if_pos hascii, if_neg, if_neg, if_neg]
    · simp only [Bool.false_eq_true, false_iff]
      omega
    · exact fun hv => absurd (hmask 0xF8 _ (by decide) hv) (by decide)
    · exact fun hv => absurd (hmask 0xF0 _ (by decide) hv) (by decide)
    · exact fun hv => absurd (hmask 0xE0 _ (by decide) hv) (by decide)
  · rw [if_neg hascii]
    split
    · rw [decide_eq_true_iff]
    · split
      · rw [decide_eq_true_iff]
      · split
        · rw [decide_eq_true_iff]
        · simp

/-- The first lead from the end on that is cut off. -/
theorem validateUtf8_eq_sub {i : Nat} (hpos : 1 ≤ i) (hle : i ≤ text.length) (hfour : i ≤ 4)
    (hcut : startsCut (text.getD (text.length - i) 0) i = true)
    (hfirst : ∀ j, 1 ≤ j → j < i → startsCut (text.getD (text.length - j) 0) j = false) :
    validateUtf8 text = text.length - i := by
  have hfind : (List.range' 1 (min 4 text.length)).find?
      (fun i => startsCut (text.getD (text.length - i) 0) i) = some i := by
    rw [List.find?_range'_eq_some]
    refine ⟨hcut, List.mem_range'_1.mpr ⟨hpos, by omega⟩, fun j hj hji => ?_⟩
    rw [hfirst j hj hji]
    rfl
  rw [validateUtf8, hfind]

/-- A whole text has no character that is cut off. -/
theorem validateUtf8_of_isUtf8 (h : IsUtf8 text) : validateUtf8 text = text.length := by
  refine Nat.le_antisymm (validateUtf8_le text) (Nat.not_lt.mp fun hlt => ?_)
  obtain ⟨i, hpos, hle, -, hcut⟩ := validateUtf8_lt_iff.mp hlt
  have hin : text.length - i < text.length := by omega
  rw [List.getD_eq_getElem _ _ hin, startsCut_iff hpos] at hcut
  have hlead := leadLen_le_of_isUtf8 h hin
  omega

/-- A text that is cut off in a character is valid up to it. -/
theorem validateUtf8_whole_part {whole part : Bytes} (hwhole : IsUtf8 whole)
    (hpart : IsPart part) : validateUtf8 (whole ++ part) = whole.length := by
  cases part with
  | nil => rw [List.append_nil, validateUtf8_of_isUtf8 hwhole]
  | cons b bs =>
    obtain ⟨hlead, hcont⟩ := hpart.cons
    have hfour := leadLen_le b
    have hlen : (whole ++ b :: bs).length = whole.length + (bs.length + 1) := by
      rw [List.length_append, List.length_cons]
    have hplace : whole.length = (whole ++ b :: bs).length - (bs.length + 1) := by omega
    conv_rhs => rw [hplace]
    refine validateUtf8_eq_sub (by omega) (by omega) (by omega) ?_ ?_
    · rw [← hplace, List.getD_append_right _ _ _ _ (Nat.le_refl _), Nat.sub_self,
        startsCut_iff (by omega)]
      exact hlead
    · -- the bytes behind the lead are no leads
      intro j hj hlt
      rw [← Bool.not_eq_true, startsCut_iff hj,
        List.getD_append_right _ _ _ _ (by omega),
        show (whole ++ b :: bs).length - j - whole.length = (bs.length - j) + 1 by omega,
        List.getD_cons_succ, List.getD_eq_getElem _ _ (by omega : bs.length - j < bs.length),
        leadLen_of_isCont (hcont _ (List.getElem_mem _))]
      omega
/-! ### The first place of a word -/

/-- The word is in the text at this place. -/
def OccursAt (text word : Bytes) (p : Nat) : Prop := word <+: text.drop p ∧ p ≤ text.length

variable {word w : Bytes} {p : Nat}

theorem OccursAt.length_le (h : OccursAt text word p) : p + word.length ≤ text.length := by
  have hle := h.1.length_le
  rw [List.length_drop] at hle
  have := h.2
  omega

/-- The first place from a start on. -/
theorem findFrom_eq_some {start : Nat} :
    findFrom text word start = some p ↔
      start ≤ p ∧ OccursAt text word p ∧ ∀ q, start ≤ q → q < p → ¬ OccursAt text word q := by
  rw [findFrom, List.find?_range'_eq_some]
  simp only [List.mem_range'_1, List.isPrefixOf_iff_prefix, OccursAt, Bool.not_eq_true',
    ← Bool.not_eq_true]
  constructor
  · rintro ⟨hpre, ⟨hstart, hlt⟩, hfirst⟩
    refine ⟨hstart, ⟨hpre, by omega⟩, fun q hq hqp hocc => hfirst q hq hqp hocc.1⟩
  · rintro ⟨hstart, ⟨hpre, hle⟩, hfirst⟩
    exact ⟨hpre, ⟨hstart, by omega⟩, fun q hq hqp hocc => hfirst q hq hqp ⟨hocc, by omega⟩⟩

theorem findFrom_eq_none {start : Nat} :
    findFrom text word start = none ↔ ∀ p, start ≤ p → ¬ OccursAt text word p := by
  rw [findFrom, List.find?_eq_none]
  simp only [List.mem_range'_1, List.isPrefixOf_iff_prefix, OccursAt]
  constructor
  · intro h p hp hocc
    exact h p ⟨hp, by omega⟩ hocc.1
  · intro h p hp hocc
    exact h p hp.1 ⟨hocc, by omega⟩

/-! ### The stop word that comes first -/

/-- The search for one stop word. -/
def stopPos (text : Bytes) (lastTokenSize : Nat) (isFullStop : Bool) (word : Bytes) : Option Nat :=
  if isFullStop then
    findFrom text word (text.length - (word.length + lastTokenSize))
  else stringFindPartialStop text word

/-- The first of the words, by the place of each. -/
def firstStop (pos : Bytes → Option Nat) (stop : Option (Nat × Bytes)) (word : Bytes) :
    Option (Nat × Bytes) :=
  match pos word, stop with
  | some p, some (q, _) => if p < q then some (p, word) else stop
  | some p, none => some (p, word)
  | none, _ => stop

/-- The search over the words, as a fold. -/
theorem findStoppingStrings_eq (words : List Bytes) (text : Bytes) (lastTokenSize : Nat)
    (isFullStop : Bool) :
    findStoppingStrings words text lastTokenSize isFullStop
      = words.foldl (firstStop (stopPos text lastTokenSize isFullStop)) none := by
  rw [findStoppingStrings]
  congr 1
  funext stop word
  -- a window that is longer than the text begins at its start
  have hwindow : (if word.length + lastTokenSize < text.length
      then text.length - (word.length + lastTokenSize) else 0)
      = text.length - (word.length + lastTokenSize) := by
    split <;> omega
  cases isFullStop with
  | true =>
    cases hpos : findFrom text word (text.length - (word.length + lastTokenSize)) <;>
      cases stop <;> simp [firstStop, stopPos, hwindow, hpos]
  | false =>
    cases hpos : stringFindPartialStop text word <;>
      cases stop <;> simp [firstStop, stopPos, hpos]

section
variable {pos : Bytes → Option Nat} {words : List Bytes}

theorem firstStop_of_none (h : pos w = none) (stop : Option (Nat × Bytes)) :
    firstStop pos stop w = stop := by
  simp only [firstStop, h]

theorem firstStop_none (h : pos w = some p) : firstStop pos none w = some (p, w) := by
  simp only [firstStop, h]

theorem firstStop_some (h : pos w = some p) (s : Nat × Bytes) :
    firstStop pos (some s) w = if p < s.1 then some (p, w) else some s := by
  simp only [firstStop, h]

variable {stop : Option (Nat × Bytes)}

/-- No word has a place. -/
theorem foldl_firstStop_eq_none :
    words.foldl (firstStop pos) stop = none ↔ stop = none ∧ ∀ w ∈ words, pos w = none := by
  induction words generalizing stop with
  | nil => simp
  | cons w words ih =>
    rw [List.foldl_cons, ih, List.forall_mem_cons]
    cases hpos : pos w with
    | none => simp [firstStop_of_none hpos]
    | some p =>
      cases stop with
      | none => simp [firstStop_none hpos]
      | some q =>
        rw [firstStop_some hpos]
        split <;> simp

/-- The fold keeps the place that comes first. -/
theorem foldl_firstStop_eq_some (h : words.foldl (firstStop pos) stop = some (p, w)) :
    (stop = some (p, w) ∨ (w ∈ words ∧ pos w = some p)) ∧
      (∀ q v, stop = some (q, v) → p ≤ q) ∧ ∀ v ∈ words, ∀ q, pos v = some q → p ≤ q := by
  induction words generalizing stop with
  | nil =>
    refine ⟨Or.inl h, fun q v hq => ?_, by simp⟩
    rw [List.foldl_nil, hq, Option.some_inj, Prod.mk.injEq] at h
    omega
  | cons u words ih =>
    obtain ⟨hin, hstop, hwords⟩ := ih (by rwa [List.foldl_cons] at h)
    cases hpos : pos u with
    | none =>
      rw [firstStop_of_none hpos] at hin hstop
      refine ⟨hin.imp id fun hw => ⟨List.mem_cons_of_mem u hw.1, hw.2⟩, hstop, ?_⟩
      intro v hv q hq
      rcases List.mem_cons.mp hv with rfl | hv
      · rw [hpos] at hq
        exact absurd hq (by simp)
      · exact hwords v hv q hq
    | some r =>
      -- the word of this step is the first so far, or it comes after the one before
      have hle : p ≤ r ∧ (∀ q v, stop = some (q, v) → p ≤ q) ∧
          (stop = some (p, w) ∨ (w ∈ u :: words ∧ pos w = some p)) := by
        cases stop with
        | none =>
          rw [firstStop_none hpos] at hin hstop
          refine ⟨hstop r u rfl, by simp, Or.inr ?_⟩
          rcases hin with hin | hw
          · obtain ⟨rfl, rfl⟩ := Prod.mk.inj (Option.some.inj hin)
            exact ⟨List.mem_cons_self, hpos⟩
          · exact ⟨List.mem_cons_of_mem u hw.1, hw.2⟩
        | some s =>
          rw [firstStop_some hpos] at hin hstop
          by_cases hlt : r < s.1
          · rw [if_pos hlt] at hin hstop
            have hpr := hstop r u rfl
            refine ⟨hpr, fun q v hq => ?_, Or.inr ?_⟩
            · rw [Option.some_inj] at hq
              rw [hq] at hlt
              exact Nat.le_trans hpr (Nat.le_of_lt hlt)
            · rcases hin with hin | hw
              · obtain ⟨rfl, rfl⟩ := Prod.mk.inj (Option.some.inj hin)
                exact ⟨List.mem_cons_self, hpos⟩
              · exact ⟨List.mem_cons_of_mem u hw.1, hw.2⟩
          · rw [if_neg hlt] at hin hstop
            have hps := hstop s.1 s.2 rfl
            refine ⟨by omega, hstop, hin.imp id fun hw => ?_⟩
            exact ⟨List.mem_cons_of_mem u hw.1, hw.2⟩
      refine ⟨hle.2.2, hle.2.1, fun v hv q hq => ?_⟩
      rcases List.mem_cons.mp hv with rfl | hv
      · rw [hpos, Option.some_inj] at hq
        omega
      · exact hwords v hv q hq

/-- What a search for stop words returns. -/
structure StopAt (pos : Bytes → Option Nat) (words : List Bytes) (p : Nat) (w : Bytes) :
    Prop where
  mem : w ∈ words
  pos_eq : pos w = some p
  first : ∀ v ∈ words, ∀ q, pos v = some q → p ≤ q

theorem findStoppingStrings_eq_some {text : Bytes} {size : Nat} {full : Bool}
    (h : findStoppingStrings words text size full = some (p, w)) :
    StopAt (stopPos text size full) words p w := by
  rw [findStoppingStrings_eq] at h
  obtain ⟨hin, -, hfirst⟩ := foldl_firstStop_eq_some h
  have hw := hin.resolve_left (by simp)
  exact ⟨hw.1, hw.2, hfirst⟩

theorem findStoppingStrings_eq_none {text : Bytes} {size : Nat} {full : Bool} :
    findStoppingStrings words text size full = none ↔
      ∀ w ∈ words, stopPos text size full w = none := by
  rw [findStoppingStrings_eq, foldl_firstStop_eq_none]
  simp

end

/-- The search for a start of a stop word does not depend on the last token. -/
theorem findStoppingStrings_partial (words : List Bytes) (text : Bytes) (n m : Nat) :
    findStoppingStrings words text n false = findStoppingStrings words text m false := by
  rw [findStoppingStrings_eq, findStoppingStrings_eq]
  rfl

/-- A search in a smaller window finds no more. -/
theorem findStoppingStrings_none_of_le {n m : Nat} (hle : n ≤ m)
    (h : findStoppingStrings words text m true = none) :
    findStoppingStrings words text n true = none := by
  rw [findStoppingStrings_eq_none] at h ⊢
  intro w hw
  have hnone := h w hw
  rw [stopPos, if_pos rfl, findFrom_eq_none] at hnone ⊢
  exact fun q hq => hnone q (by omega)

/-- Words that are not found in a text are not found in an empty one. -/
theorem findStoppingStrings_nil {n : Nat} (h : findStoppingStrings words text n true = none)
    (m : Nat) (full : Bool) : findStoppingStrings words [] m full = none := by
  rw [findStoppingStrings_eq_none] at h ⊢
  intro w hw
  cases full with
  | true =>
    have hnone := h w hw
    rw [stopPos, if_pos rfl, findFrom_eq_none] at hnone ⊢
    -- only the empty word is in an empty text, and that is at the end of every text
    rintro q - hocc
    have hempty : w = [] := by
      have hle := hocc.length_le
      rw [List.length_nil] at hle
      exact List.length_eq_zero_iff.mp (by omega)
    refine hnone text.length (by omega) ⟨?_, Nat.le_refl _⟩
    rw [hempty]
    exact List.nil_prefix
  | false => rw [stopPos, if_neg (by simp), stringFindPartialStop, if_neg (by simp)]

/-! ### Stop words in a text -/

/-- A start of the word is at the end of the text. -/
theorem stringFindPartialStop_isSome :
    (stringFindPartialStop text word).isSome = true ↔ ∃ x, x <+: word ∧ x <:+ text ∧ x ≠ [] := by
  rw [stringFindPartialStop]
  constructor
  · intro h
    split at h
    · rename_i hne
      rw [Option.isSome_map, List.find?_isSome] at h
      obtain ⟨i, hi, hfound⟩ := h
      rw [List.mem_reverse, List.mem_range] at hi
      rw [Bool.and_eq_true, List.isSuffixOf_iff_suffix] at hfound
      refine ⟨word.take (i + 1), List.take_prefix _ _, hfound.2, fun hnil => ?_⟩
      have hlen := congrArg List.length hnil
      rw [List.length_take, List.length_nil] at hlen
      omega
    · exact absurd h (by simp)
  · rintro ⟨x, ⟨rest, rfl⟩, ⟨front, rfl⟩, hne⟩
    obtain ⟨z, c, rfl⟩ := (List.eq_nil_or_concat' x).resolve_left hne
    rw [if_pos (by simp), Option.isSome_map, List.find?_isSome]
    -- the start is found at its last byte
    refine ⟨z.length, by simp, ?_⟩
    have htake : ((z ++ [c]) ++ rest).take (z.length + 1) = z ++ [c] := by
      rw [List.take_append_of_le_length (by simp)]
      exact List.take_of_length_le (by simp)
    rw [Bool.and_eq_true, htake, List.isSuffixOf_iff_suffix]
    refine ⟨?_, List.suffix_append _ _⟩
    rw [decide_eq_true_iff, ← List.append_assoc, List.getLastD_concat]
    simp

/-- A stop word is in the text. -/
def Occurs (words : List Bytes) (text : Bytes) : Prop := ∃ w ∈ words, ∃ s, OccursAt text w s

/-- The text does not end with the start of a stop word. -/
def EndsClean (words : List Bytes) (text : Bytes) : Prop :=
  ∀ w ∈ words, ∀ x, x <+: w → x <:+ text → x = []

/-- A partial search finds something when the text ends within a word. -/
theorem findStoppingStrings_partial_isSome {n : Nat} :
    (findStoppingStrings words text n false).isSome = true ↔ ¬ EndsClean words text := by
  rw [← not_iff_not, not_not, Bool.not_eq_true, Option.isSome_eq_false_iff,
    Option.isNone_iff_eq_none, findStoppingStrings_eq_none, EndsClean]
  refine forall₂_congr fun w _ => ?_
  rw [stopPos, if_neg (by simp), ← Option.isNone_iff_eq_none, ← Option.isSome_eq_false_iff,
    ← Bool.not_eq_true, stringFindPartialStop_isSome]
  constructor
  · intro h x hx hsuffix
    by_contra hne
    exact h ⟨x, hx, hsuffix, hne⟩
  · rintro h ⟨x, hx, hsuffix, hne⟩
    exact hne (h x hx hsuffix)

/-- The places of a word behind a cut. -/
theorem occursAt_drop {n s : Nat} (hn : n ≤ text.length) :
    OccursAt (text.drop n) word s ↔ OccursAt text word (n + s) := by
  rw [OccursAt, OccursAt, List.drop_drop, List.length_drop]
  exact and_congr_right fun _ => by omega

/-- A longer text has the places of a text. -/
theorem OccursAt.append {text word : Bytes} {s : Nat} (h : OccursAt text word s) (more : Bytes) :
    OccursAt (text ++ more) word s := by
  refine ⟨?_, by rw [List.length_append]; exact Nat.le_add_right_of_le h.2⟩
  rw [List.drop_append_of_le_length h.2]
  exact h.1.trans (List.prefix_append _ _)

/-- A place that ends in the text is one of the text. -/
theorem OccursAt.of_append {more : Bytes} {s : Nat} (h : OccursAt (text ++ more) word s)
    (hend : s + word.length ≤ text.length) : OccursAt text word s := by
  have hs : s ≤ text.length := by omega
  have hpre := h.1
  rw [List.drop_append_of_le_length hs] at hpre
  refine ⟨List.prefix_of_prefix_length_le hpre (List.prefix_append _ _) ?_, hs⟩
  rw [List.length_drop]
  omega

/-- A place that ends behind a text which does not end with the start of a stop word begins
behind it. -/
theorem EndsClean.le_of_occursAt {more : Bytes} {s : Nat} (hclean : EndsClean words text)
    (hword : word ∈ words) (h : OccursAt (text ++ more) word s)
    (hend : text.length < s + word.length) : text.length ≤ s := by
  by_contra hlt
  rw [Nat.not_le] at hlt
  -- what of the word is in the text is the start of the word
  have hpre := h.1
  rw [List.drop_append_of_le_length (Nat.le_of_lt hlt)] at hpre
  have hstart : text.drop s <+: word := by
    refine List.prefix_of_prefix_length_le (List.prefix_append _ _) hpre ?_
    rw [List.length_drop]
    omega
  have hnil := hclean word hword _ hstart (List.drop_suffix _ _)
  have hlen := congrArg List.length hnil
  rw [List.length_drop, List.length_nil] at hlen
  omega

/-- The end of a text behind one that ends clean. -/
theorem endsClean_append {more : Bytes} (h : EndsClean words text) :
    EndsClean words (text ++ more) ↔ EndsClean words more := by
  constructor
  · intro hall w hw x hx hsuffix
    exact hall w hw x hx (hsuffix.trans (List.suffix_append _ _))
  · intro hmore w hw x hx hsuffix
    rcases List.suffix_or_suffix_of_suffix hsuffix (List.suffix_append text more) with hin | hin
    · exact hmore w hw x hx hin
    · -- the rest of the start would be at the end of the text before
      obtain ⟨y, rfl⟩ := hin
      obtain ⟨z, hz⟩ := hsuffix
      rw [← List.append_assoc, List.append_left_inj] at hz
      have hy : y = [] := h w hw y ((List.prefix_append _ _).trans hx) ⟨z, hz⟩
      rw [hy, List.nil_append] at hx ⊢
      exact hmore w hw more hx (List.suffix_refl _)

/-! ### The window of a full search -/

section
variable {words : List Bytes} {text piece : Bytes} {n : Nat}

/-- Where a full search looks: behind what was sent, for words that end in the last token or right
before it. -/
def InWindow (text piece word : Bytes) (n s : Nat) : Prop :=
  OccursAt (text ++ piece) word s ∧ n ≤ s ∧ text.length ≤ s + word.length

/-- The full search finds the first occurrence that ends in the new piece. -/
theorem stopPos_full_eq_some (hn : n ≤ (text ++ piece).length) {q : Nat} :
    stopPos ((text ++ piece).drop n) piece.length true word = some q ↔
      InWindow text piece word n (n + q) ∧
        ∀ s, InWindow text piece word n s → n + q ≤ s := by
  have hlen : ((text ++ piece).drop n).length = text.length + piece.length - n := by
    rw [List.length_drop, List.length_append]
  -- the start of the window, counted from the start of the text
  have hwindow : ∀ r, OccursAt (text ++ piece) word (n + r) →
      (text.length + piece.length - n - (word.length + piece.length) ≤ r ↔
        text.length ≤ n + r + word.length) := by
    intro r hocc
    have hle := hocc.length_le
    rw [List.length_append] at hle
    omega
  rw [stopPos, if_pos rfl, findFrom_eq_some, hlen]
  simp only [occursAt_drop hn]
  constructor
  · rintro ⟨hstart, hocc, hfirst⟩
    refine ⟨⟨hocc, by omega, (hwindow q hocc).mp hstart⟩, fun s hs => ?_⟩
    obtain ⟨r, rfl⟩ := Nat.exists_eq_add_of_le hs.2.1
    by_contra hlt
    exact hfirst r ((hwindow r hs.1).mpr hs.2.2) (by omega) hs.1
  · rintro ⟨⟨hocc, -, hend⟩, hfirst⟩
    refine ⟨(hwindow q hocc).mpr hend, hocc, fun r hr hlt hocc' => ?_⟩
    have hle := hfirst (n + r) ⟨hocc', by omega, (hwindow r hocc').mp hr⟩
    omega

/-- And finds none exactly when no occurrence ends there. -/
theorem stopPos_full_eq_none (hn : n ≤ (text ++ piece).length) :
    stopPos ((text ++ piece).drop n) piece.length true word = none ↔
      ∀ s, ¬ InWindow text piece word n s := by
  have hlen : ((text ++ piece).drop n).length = text.length + piece.length - n := by
    rw [List.length_drop, List.length_append]
  rw [stopPos, if_pos rfl, findFrom_eq_none, hlen]
  simp only [occursAt_drop hn]
  constructor
  · intro h s hs
    obtain ⟨r, rfl⟩ := Nat.exists_eq_add_of_le hs.2.1
    have hle := hs.1.length_le
    rw [List.length_append] at hle
    have hend := hs.2.2
    exact h r (by omega) hs.1
  · intro h r hr hocc
    have hle := hocc.length_le
    rw [List.length_append] at hle
    exact h (n + r) ⟨hocc, by omega, by omega⟩

/-- A full search finds nothing: no stop word is in its window. -/
theorem findStoppingStrings_full_eq_none (hn : n ≤ (text ++ piece).length) :
    findStoppingStrings words ((text ++ piece).drop n) piece.length true = none ↔
      ∀ w ∈ words, ∀ s, ¬ InWindow text piece w n s := by
  rw [findStoppingStrings_eq_none]
  exact forall₂_congr fun w _ => stopPos_full_eq_none hn

/-- A full search finds the first place of a stop word in its window. -/
theorem findStoppingStrings_full_eq_some (hn : n ≤ (text ++ piece).length) {q : Nat}
    (h : findStoppingStrings words ((text ++ piece).drop n) piece.length true = some (q, word)) :
    word ∈ words ∧ InWindow text piece word n (n + q) ∧
      ∀ w ∈ words, ∀ s, InWindow text piece w n s → n + q ≤ s := by
  have hstop := findStoppingStrings_eq_some h
  have hword := (stopPos_full_eq_some hn).mp hstop.pos_eq
  refine ⟨hstop.mem, hword.1, fun w hw s hs => ?_⟩
  cases hpos : stopPos ((text ++ piece).drop n) piece.length true w with
  | none => exact absurd hs ((stopPos_full_eq_none hn).mp hpos s)
  | some r =>
    have hle := hstop.first w hw r hpos
    have hfirst := ((stopPos_full_eq_some hn).mp hpos).2 s hs
    omega

end

end PxqLlama.Server
