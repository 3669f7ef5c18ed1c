import PxqLlama.Server.Tokens

/-!
# `Proofs.Server.TextPrefix`: the common prefix of two texts, in tokens

`find_common_text_token_prefix` goes from the tokens to their texts, takes the common prefix of the
texts, and goes back to the last places at which both token lists have the same text length.

One definition serves the exact comparison and the one that passes over blanks: `strip` leaves out
the characters of a list, which is empty for the exact one. `findCommonTextTokenPrefix_same` says
that the two prefixes found have the same text up to these characters. No longer pair with a token
on either side has (`findCommonTextTokenPrefix_longest`), except that the blanks at the end of one
text are not compared with nothing.
-/

namespace PxqLlama.Server

/-! ### Texts -/

/-- The text without the characters of `ignore`. -/
def strip (ignore : List UInt8) (text : Bytes) : Bytes := text.filter (· ∉ ignore)

/-- The characters that a comparison passes over. -/
def ignored (exact : Bool) : List UInt8 := if exact then [] else ignoreSet

/-- The pieces of some tokens. -/
def textOf (txt : TokenText) (tokens : List Int) : Bytes := tokens.flatMap txt.piece

theorem strip_append (ignore : List UInt8) (x y : Bytes) :
    strip ignore (x ++ y) = strip ignore x ++ strip ignore y := List.filter_append x y

theorem strip_nil_ignore (x : Bytes) : strip [] x = x :=
  List.filter_eq_self.mpr fun _ _ => by simp

theorem strip_take_initial (ignore : List UInt8) (x : Bytes) {m n : Nat} (h : m ≤ n) :
    strip ignore (x.take m) <+: strip ignore (x.take n) := by
  have htake : x.take m <+: x.take n := by
    rw [← Nat.min_eq_left h, ← List.take_take]
    exact List.take_prefix m _
  exact htake.filter _

theorem textOf_initial (txt : TokenText) {l m : List Int} (h : l <+: m) :
    textOf txt l <+: textOf txt m := by
  obtain ⟨rest, heq⟩ := h
  rw [← heq, textOf, textOf, List.flatMap_append]
  exact List.prefix_append _ _

/-- The text of the first tokens is the beginning of the text. -/
theorem textOf_take (txt : TokenText) (tokens : List Int) (n : Nat) :
    textOf txt (tokens.take n) = (textOf txt tokens).take (textOf txt (tokens.take n)).length :=
  List.prefix_iff_eq_take.mp (textOf_initial txt (List.take_prefix n tokens))

/-! ### The common prefix of two strings -/

/-- The string prefix that a comparison finds. -/
def stringPrefix (exact : Bool) (a b : Bytes) : CommonPrefix :=
  if exact then { first := commonPart a b, second := commonPart a b }
  else findCommonStringPrefix a b ignoreSet (a.length + b.length) 0 0

theorem commonPart_cons (x y : UInt8) (a b : Bytes) :
    commonPart (x :: a) (y :: b) = if x = y then commonPart a b + 1 else 0 := by
  rw [commonPart, List.zip_cons_cons, List.takeWhile_cons]
  by_cases h : x = y
  · rw [if_pos h, if_pos (by simpa using h)]
    rfl
  · rw [if_neg h, if_neg (by simpa using h)]
    rfl

/-- Two lists are the same up to their first difference. -/
theorem take_zip_takeWhile {α : Type} [DecidableEq α] (a b : List α) :
    a.take ((a.zip b).takeWhile fun p => p.1 = p.2).length =
      b.take ((a.zip b).takeWhile fun p => p.1 = p.2).length := by
  induction a generalizing b with
  | nil => simp
  | cons x a ih =>
    cases b with
    | nil => simp
    | cons y b =>
      rw [List.zip_cons_cons, List.takeWhile_cons]
      by_cases heq : x = y
      · rw [if_pos (by simpa using heq), List.length_cons, List.take_succ_cons,
          List.take_succ_cons, heq, ih b]
      · rw [if_neg (by simpa using heq)]
        rfl

theorem le_commonPart {a b : Bytes} {k : Nat} (ha : k ≤ a.length) (hb : k ≤ b.length)
    (h : a.take k = b.take k) : k ≤ commonPart a b := by
  induction k generalizing a b with
  | zero => exact Nat.zero_le _
  | succ k ih =>
    cases a with
    | nil => exact absurd ha (Nat.not_succ_le_zero k)
    | cons x a =>
      cases b with
      | nil => exact absurd hb (Nat.not_succ_le_zero k)
      | cons y b =>
        rw [List.take_succ_cons, List.take_succ_cons] at h
        obtain ⟨hxy, hrest⟩ := List.cons.inj h
        rw [commonPart_cons, if_pos hxy]
        exact Nat.succ_le_succ
          (ih (Nat.le_of_succ_le_succ ha) (Nat.le_of_succ_le_succ hb) hrest)

/-- One character more. -/
theorem strip_take_succ {ignore : List UInt8} {x : Bytes} {i : Nat} {c : UInt8}
    (hi : x[i]? = some c) :
    strip ignore (x.take (i + 1)) =
      strip ignore (x.take i) ++ if c ∈ ignore then [] else [c] := by
  rw [List.take_add_one, hi, strip_append]
  by_cases hc : c ∈ ignore
  · rw [if_pos hc]
    simp [strip, hc]
  · rw [if_neg hc]
    simp [strip, hc]

/-- The loop of `find_common_string_prefix` keeps the stripped texts equal, and ends at the end of
a text or at two different characters that it does not pass over. -/
theorem findCommonStringPrefix_spec (a b : Bytes) (ignore : List UInt8) (fuel i j : Nat)
    (hfuel : (a.length - i) + (b.length - j) ≤ fuel) (hi : i ≤ a.length) (hj : j ≤ b.length)
    (hsame : strip ignore (a.take i) = strip ignore (b.take j)) :
    let r := findCommonStringPrefix a b ignore fuel i j
    r.first ≤ a.length ∧ r.second ≤ b.length ∧
      strip ignore (a.take r.first) = strip ignore (b.take r.second) ∧
      (r.first = a.length ∨ r.second = b.length ∨
        ∃ x y, a[r.first]? = some x ∧ b[r.second]? = some y ∧ x ≠ y ∧ x ∉ ignore ∧
          y ∉ ignore) := by
  induction fuel generalizing i j with
  | zero =>
    have hend : i = a.length := by omega
    exact ⟨hi, hj, hsame, Or.inl hend⟩
  | succ fuel ih =>
    intro r
    show r.first ≤ _ ∧ _
    have hr : r = findCommonStringPrefix a b ignore (fuel + 1) i j := rfl
    rw [findCommonStringPrefix] at hr
    cases hx : a[i]? with
    | none =>
      have hend : i = a.length := Nat.le_antisymm hi (List.getElem?_eq_none_iff.mp hx)
      rw [hx] at hr
      rw [hr]
      exact ⟨hi, hj, hsame, Or.inl hend⟩
    | some x =>
      cases hy : b[j]? with
      | none =>
        have hend : j = b.length := Nat.le_antisymm hj (List.getElem?_eq_none_iff.mp hy)
        rw [hx, hy] at hr
        rw [hr]
        exact ⟨hi, hj, hsame, Or.inr (Or.inl hend)⟩
      | some y =>
        rw [hx, hy] at hr
        simp only at hr
        obtain ⟨hilt, -⟩ := List.getElem?_eq_some_iff.mp hx
        obtain ⟨hjlt, -⟩ := List.getElem?_eq_some_iff.mp hy
        by_cases hxy : x = y
        · rw [if_pos hxy] at hr
          rw [hr]
          refine ih (i + 1) (j + 1) (by omega) hilt hjlt ?_
          rw [strip_take_succ hx, strip_take_succ hy, hsame, hxy]
        · rw [if_neg hxy] at hr
          by_cases hxi : x ∈ ignore
          · by_cases hyi : y ∈ ignore
            · rw [if_pos ⟨hxi, hyi⟩] at hr
              rw [hr]
              refine ih (i + 1) (j + 1) (by omega) hilt hjlt ?_
              rw [strip_take_succ hx, strip_take_succ hy, hsame, if_pos hxi, if_pos hyi]
            · rw [if_neg fun h => hyi h.2, if_pos hxi] at hr
              rw [hr]
              refine ih (i + 1) j (by omega) hilt hj ?_
              rw [strip_take_succ hx, hsame, if_pos hxi, List.append_nil]
          · rw [if_neg fun h => hxi h.1, if_neg hxi] at hr
            by_cases hyi : y ∈ ignore
            · rw [if_pos hyi] at hr
              rw [hr]
              refine ih i (j + 1) (by omega) hi hjlt ?_
              rw [strip_take_succ hy, hsame, if_pos hyi, List.append_nil]
            · rw [if_neg hyi] at hr
              rw [hr]
              exact ⟨hi, hj, hsame, Or.inr (Or.inr ⟨x, y, hx, hy, hxy, hxi, hyi⟩)⟩

/-- Behind two different characters that are not passed over nothing is the same. -/
theorem le_of_differ {a b : Bytes} {ignore : List UInt8} {i j i' j' : Nat} {x y : UInt8}
    (hx : a[i]? = some x) (hy : b[j]? = some y) (hxy : x ≠ y) (hxi : x ∉ ignore)
    (hyi : y ∉ ignore) (hsame : strip ignore (a.take i) = strip ignore (b.take j))
    (hsame' : strip ignore (a.take i') = strip ignore (b.take j')) : i' ≤ i := by
  by_contra hlong
  have hahead : strip ignore (a.take i) ++ [x] <+: strip ignore (a.take i') := by
    have h := strip_take_initial ignore a (show i + 1 ≤ i' by omega)
    rw [strip_take_succ hx, if_neg hxi] at h
    exact h
  rcases Nat.lt_or_ge j j' with hlt | hle
  · have hbhead : strip ignore (b.take j) ++ [y] <+: strip ignore (b.take j') := by
      have h := strip_take_initial ignore b (show j + 1 ≤ j' from hlt)
      rw [strip_take_succ hy, if_neg hyi] at h
      exact h
    -- Both are the beginning of one text, of the same length.
    rw [← hsame, ← hsame'] at hbhead
    have hboth : strip ignore (a.take i) ++ [x] = strip ignore (a.take i) ++ [y] := by
      rw [List.prefix_iff_eq_take.mp hahead, List.prefix_iff_eq_take.mp hbhead,
        List.length_append, List.length_append]
      rfl
    exact hxy (List.cons.inj (List.append_cancel_left hboth)).1
  · have hshort := (strip_take_initial ignore b hle).length_le
    have hlen := hahead.length_le
    rw [List.length_append, List.length_singleton, hsame'] at hlen
    rw [hsame] at hlen
    omega

/-- The last character of a text is one that the comparison with blanks passes over. -/
def EndsBlank (text : Bytes) : Prop := ∃ c ∈ ignoreSet, text.getLast? = some c

/-- The first text has nothing left but blanks, and the second one ends with a blank. -/
def BlankEnd (whole x y : Bytes) : Prop :=
  strip ignoreSet x = strip ignoreSet whole ∧ EndsBlank y

/-- A longer part of the second text, when the first text has ended. -/
theorem blankEnd_of_lt {a b : Bytes} {j i' j' : Nat} (hj' : j' ≤ b.length) (hlt : j < j')
    (hall : strip ignoreSet a = strip ignoreSet (b.take j))
    (hsame : strip ignoreSet (a.take i') = strip ignoreSet (b.take j')) :
    BlankEnd a (a.take i') (b.take j') := by
  have hpre : strip ignoreSet (a.take i') <+: strip ignoreSet a := (List.take_prefix i' a).filter _
  have hlen : (strip ignoreSet (b.take j)).length ≤ (strip ignoreSet (b.take j')).length :=
    (strip_take_initial ignoreSet b (Nat.le_of_lt hlt)).length_le
  have hwhole : strip ignoreSet (a.take i') = strip ignoreSet a :=
    hpre.eq_of_length_le (by rw [hall, hsame]; exact hlen)
  refine ⟨hwhole, ?_⟩
  obtain ⟨c, hc⟩ : ∃ c, b[j' - 1]? = some c := ⟨_, List.getElem?_eq_getElem (by omega)⟩
  have hsucc : j' - 1 + 1 = j' := by omega
  refine ⟨c, ?_, ?_⟩
  · by_contra hno
    have hstep := @strip_take_succ ignoreSet b (j' - 1) c hc
    rw [hsucc, if_neg hno, ← hsame, hwhole, hall] at hstep
    have hmono := (strip_take_initial ignoreSet b (show j ≤ j' - 1 by omega)).length_le
    rw [hstep, List.length_append, List.length_singleton] at hmono
    omega
  · rw [List.getLast?_eq_getElem?, List.length_take, Nat.min_eq_left hj',
      List.getElem?_take_of_lt (by omega), hc]

/-- The string prefix: the texts are the same there, and what is the same ends there. -/
theorem stringPrefix_spec (exact : Bool) (a b : Bytes) :
    strip (ignored exact) (a.take (stringPrefix exact a b).first) =
        strip (ignored exact) (b.take (stringPrefix exact a b).second) ∧
      ∀ i' j', i' ≤ a.length → j' ≤ b.length →
        strip (ignored exact) (a.take i') = strip (ignored exact) (b.take j') →
        (i' ≤ (stringPrefix exact a b).first ∧ j' ≤ (stringPrefix exact a b).second) ∨
          (exact = false ∧
            (BlankEnd a (a.take i') (b.take j') ∨ BlankEnd b (b.take j') (a.take i'))) := by
  cases exact with
  | true =>
    constructor
    · show strip [] _ = strip [] _
      rw [strip_nil_ignore, strip_nil_ignore]
      exact take_zip_takeWhile a b
    · intro i' j' hi' hj' hsame
      have htake : a.take i' = b.take j' := by
        have h : strip [] (a.take i') = strip [] (b.take j') := hsame
        rw [strip_nil_ignore, strip_nil_ignore] at h
        exact h
      have hlen := congrArg List.length htake
      rw [List.length_take, List.length_take, Nat.min_eq_left hi', Nat.min_eq_left hj'] at hlen
      subst hlen
      exact Or.inl ⟨le_commonPart hi' hj' htake, le_commonPart hi' hj' htake⟩
  | false =>
    obtain ⟨hfirst, hsecond, hsame, hend⟩ :=
      findCommonStringPrefix_spec a b ignoreSet (a.length + b.length) 0 0 (Nat.le_refl _)
        (Nat.zero_le _) (Nat.zero_le _) rfl
    refine ⟨hsame, fun i' j' hi' hj' hsame' => ?_⟩
    change (stringPrefix false a b).first ≤ _ at hfirst
    change (stringPrefix false a b).second ≤ _ at hsecond
    change strip ignoreSet (a.take (stringPrefix false a b).first) =
      strip ignoreSet (b.take (stringPrefix false a b).second) at hsame
    change (stringPrefix false a b).first = _ ∨ (stringPrefix false a b).second = _ ∨
      ∃ x y, a[(stringPrefix false a b).first]? = _ ∧ b[(stringPrefix false a b).second]? = _ ∧ _
      at hend
    generalize stringPrefix false a b = r at hfirst hsecond hsame hend ⊢
    rcases hend with hend | hend | ⟨x, y, hx, hy, hxy, hxi, hyi⟩
    · -- The first text has ended.
      rcases Nat.lt_or_ge r.second j' with hlt | hle
      · rw [hend, List.take_length] at hsame
        exact Or.inr ⟨rfl, Or.inl (blankEnd_of_lt hj' hlt hsame hsame')⟩
      · exact Or.inl ⟨by omega, hle⟩
    · -- The second text has ended.
      rcases Nat.lt_or_ge r.first i' with hlt | hle
      · rw [hend, List.take_length] at hsame
        exact Or.inr ⟨rfl, Or.inr (blankEnd_of_lt hi' hlt hsame.symm hsame'.symm)⟩
      · exact Or.inl ⟨hle, by omega⟩
    · exact Or.inl ⟨le_of_differ hx hy hxy hxi hyi hsame hsame',
        le_of_differ hy hx hxy.symm hyi hxi hsame.symm hsame'.symm⟩

/-! ### From texts to tokens -/

/-- The running lengths are those of the first tokens, as long as their text fits. -/
theorem findNTokensFromString_getElem? (txt : TokenText) (maxSize : Nat) (ignore : List UInt8)
    (tokens : List Int) (len lenIgnore k v : Nat) :
    (findNTokensFromString txt maxSize ignore tokens len lenIgnore)[k]? = some v ↔
      k < tokens.length ∧ len + (textOf txt (tokens.take (k + 1))).length ≤ maxSize ∧
        v = lenIgnore + (strip ignore (textOf txt (tokens.take (k + 1)))).length := by
  induction tokens generalizing len lenIgnore k with
  | nil => simp [findNTokensFromString]
  | cons t tokens ih =>
    have hcons : ∀ n, textOf txt ((t :: tokens).take (n + 1)) =
        txt.piece t ++ textOf txt (tokens.take n) := by
      intro n
      rw [List.take_succ_cons, textOf, textOf, List.flatMap_cons]
    rw [findNTokensFromString, hcons, strip_append, List.length_append, List.length_append]
    show (if len + (txt.piece t).length ≤ maxSize then
      (lenIgnore + (strip ignore (txt.piece t)).length) :: _ else [])[k]? = some v ↔ _
    split
    · rename_i hfits
      cases k with
      | zero =>
        simp only [List.getElem?_cons_zero, Option.some_inj, List.take_zero]
        show lenIgnore + (strip ignore (txt.piece t)).length = v ↔ 0 < (t :: tokens).length ∧
          len + ((txt.piece t).length + 0) ≤ maxSize ∧
          v = lenIgnore + ((strip ignore (txt.piece t)).length + 0)
        rw [List.length_cons]
        omega
      | succ k =>
        rw [List.getElem?_cons_succ, ih, List.length_cons]
        have hpiece : ((txt.piece t).filter (· ∉ ignore)).length =
            (strip ignore (txt.piece t)).length := rfl
        omega
    · rename_i hlong
      constructor
      · exact nofun
      · intro h
        omega

/-- The last common number: nothing beyond it is common to both lists. -/
theorem findLargestCommonNumber_spec {a b : List Nat} (ha : a.Pairwise (· ≤ ·))
    (hb : b.Pairwise (· ≤ ·)) (fuel i j : Nat) (hfuel : i + j ≤ fuel) (hi : i ≤ a.length)
    (hj : j ≤ b.length) :
    let r := findLargestCommonNumber a b fuel i j
    ((r.first = 0 ∧ r.second = 0) ∨
        ∃ m n v, r.first = m + 1 ∧ r.second = n + 1 ∧ a[m]? = some v ∧ b[n]? = some v) ∧
      ∀ i' j' v, i' < i → j' < j → a[i']? = some v → b[j']? = some v →
        i' < r.first ∧ j' < r.second := by
  have hmono : ∀ {l : List Nat}, l.Pairwise (· ≤ ·) → ∀ {k n x y : Nat}, k ≤ n →
      l[k]? = some x → l[n]? = some y → x ≤ y := by
    intro l hl k n x y hkn hk hn
    obtain ⟨hklt, rfl⟩ := List.getElem?_eq_some_iff.mp hk
    obtain ⟨hnlt, rfl⟩ := List.getElem?_eq_some_iff.mp hn
    rcases Nat.eq_or_lt_of_le hkn with heq | hlt
    · subst heq
      exact Nat.le_refl _
    · exact List.pairwise_iff_getElem.mp hl k n hklt hnlt hlt
  induction fuel generalizing i j with
  | zero =>
    exact ⟨Or.inl ⟨rfl, rfl⟩, fun i' j' v hi' => by omega⟩
  | succ fuel ih =>
    cases i with
    | zero => exact ⟨Or.inl ⟨rfl, rfl⟩, fun i' j' v hi' => by omega⟩
    | succ i =>
      cases j with
      | zero => exact ⟨Or.inl ⟨rfl, rfl⟩, fun i' j' v _ hj' => by omega⟩
      | succ j =>
        have hx : a[i]? = some (a.getD i 0) := by
          rw [List.getD_eq_getElem?_getD, List.getElem?_eq_getElem (by omega)]
          rfl
        have hy : b[j]? = some (b.getD j 0) := by
          rw [List.getD_eq_getElem?_getD, List.getElem?_eq_getElem (by omega)]
          rfl
        intro r
        have hr : r = findLargestCommonNumber a b (fuel + 1) (i + 1) (j + 1) := rfl
        rw [findLargestCommonNumber] at hr
        by_cases hxy : a.getD i 0 = b.getD j 0
        · rw [if_pos hxy] at hr
          rw [hr]
          refine ⟨Or.inr ⟨i, j, _, rfl, rfl, hx, hxy ▸ hy⟩, fun i' j' v hi' hj' _ _ => ?_⟩
          exact ⟨hi', hj'⟩
        · rw [if_neg hxy] at hr
          by_cases hlt : b.getD j 0 < a.getD i 0
          · rw [if_pos hlt] at hr
            obtain ⟨hcommon, hbeyond⟩ := ih i (j + 1) (by omega) (by omega) hj
            rw [hr]
            refine ⟨hcommon, fun i' j' v hi' hj' hvi hvj => ?_⟩
            apply hbeyond i' j' v _ hj' hvi hvj
            -- The last number of the first list is larger than all of the second one.
            have hle := hmono hb (Nat.le_of_lt_succ hj') hvj hy
            by_contra hlast
            rw [show i' = i by omega, hx] at hvi
            have hv := Option.some.inj hvi
            omega
          · rw [if_neg hlt] at hr
            obtain ⟨hcommon, hbeyond⟩ := ih (i + 1) j (by omega) hi (by omega)
            rw [hr]
            refine ⟨hcommon, fun i' j' v hi' hj' hvi hvj => ?_⟩
            apply hbeyond i' j' v hi' _ hvi hvj
            have hle := hmono ha (Nat.le_of_lt_succ hi') hvi hx
            by_contra hlast
            rw [show j' = j by omega, hy] at hvj
            have hv := Option.some.inj hvj
            omega

theorem findNTokensFromString_pairwise (txt : TokenText) (maxSize : Nat) (ignore : List UInt8)
    (tokens : List Int) :
    (findNTokensFromString txt maxSize ignore tokens 0 0).Pairwise (· ≤ ·) := by
  apply List.pairwise_iff_getElem.mpr
  intro i j hi hj hij
  obtain ⟨-, -, hvi⟩ := (findNTokensFromString_getElem? txt maxSize ignore tokens 0 0 i _).mp
    (List.getElem?_eq_getElem hi)
  obtain ⟨-, -, hvj⟩ := (findNTokensFromString_getElem? txt maxSize ignore tokens 0 0 j _).mp
    (List.getElem?_eq_getElem hj)
  rw [hvi, hvj]
  have htake : tokens.take (i + 1) <+: tokens.take (j + 1) := by
    rw [← Nat.min_eq_left (show i + 1 ≤ j + 1 by omega), ← List.take_take]
    exact List.take_prefix _ _
  have hpre : strip ignore (textOf txt (tokens.take (i + 1))) <+:
      strip ignore (textOf txt (tokens.take (j + 1))) := (textOf_initial txt htake).filter _
  exact Nat.add_le_add_left hpre.length_le 0

/-! ### The common prefix of two token lists -/

section TokenPrefix

variable (txt : TokenText) (hdetok : ∀ tokens, txt.detokenize tokens = textOf txt tokens)

include hdetok

/-- What the comparison of two token lists from a place on computes. -/
theorem findCommonTextTokenPrefix_eq (a b : List Int) (start : Nat) (exact : Bool) :
    findCommonTextTokenPrefix txt a b start exact =
      if a.length ≤ start ∨ b.length ≤ start then {}
      else
        let r := stringPrefix exact (textOf txt (a.drop start)) (textOf txt (b.drop start))
        let aList := findNTokensFromString txt r.first (ignored exact) (a.drop start) 0 0
        let bList := findNTokensFromString txt r.second (ignored exact) (b.drop start) 0 0
        findLargestCommonNumber aList bList (aList.length + bList.length) aList.length
          bList.length := by
  rw [findCommonTextTokenPrefix, ← hdetok, ← hdetok]
  cases exact <;> rfl

/-- The prefixes found lie inside the lists and have the same text. Every longer pair with a token
on both sides and with the same text goes on with blanks behind the end of the other text. -/
theorem findCommonTextTokenPrefix_spec (a b : List Int) (start : Nat) (exact : Bool) :
    let r := findCommonTextTokenPrefix txt a b start exact
    r.first ≤ (a.drop start).length ∧ r.second ≤ (b.drop start).length ∧
      strip (ignored exact) (textOf txt ((a.drop start).take r.first)) =
        strip (ignored exact) (textOf txt ((b.drop start).take r.second)) ∧
      ∀ x y, 0 < x → x ≤ (a.drop start).length → 0 < y → y ≤ (b.drop start).length →
        strip (ignored exact) (textOf txt ((a.drop start).take x)) =
          strip (ignored exact) (textOf txt ((b.drop start).take y)) →
        (x ≤ r.first ∧ y ≤ r.second) ∨
          (exact = false ∧
            (BlankEnd (textOf txt (a.drop start)) (textOf txt ((a.drop start).take x))
                (textOf txt ((b.drop start).take y)) ∨
              BlankEnd (textOf txt (b.drop start)) (textOf txt ((b.drop start).take y))
                (textOf txt ((a.drop start).take x)))) := by
  intro r
  have hr : r = findCommonTextTokenPrefix txt a b start exact := rfl
  rw [findCommonTextTokenPrefix_eq txt hdetok] at hr
  split at hr
  · rename_i hempty
    rw [hr]
    refine ⟨Nat.zero_le _, Nat.zero_le _, rfl, fun x y hx hxa hy hyb => ?_⟩
    rw [List.length_drop] at hxa hyb
    omega
  · generalize a.drop start = as at hr ⊢
    generalize b.drop start = bs at hr ⊢
    obtain ⟨hstr, hstrEnd⟩ := stringPrefix_spec exact (textOf txt as) (textOf txt bs)
    generalize stringPrefix exact (textOf txt as) (textOf txt bs) = p at hr hstr hstrEnd
    have hnums := findLargestCommonNumber_spec
      (findNTokensFromString_pairwise txt p.first (ignored exact) as)
      (findNTokensFromString_pairwise txt p.second (ignored exact) bs)
      _ _ _ (Nat.le_refl _) (Nat.le_refl _) (Nat.le_refl _)
    rw [← hr] at hnums
    obtain ⟨hcommon, hbeyond⟩ := hnums
    refine ⟨?_, ?_, ?_, ?_⟩
    · rcases hcommon with ⟨hzero, -⟩ | ⟨m, n, v, hm, -, ham, -⟩
      · omega
      · have hlt := ((findNTokensFromString_getElem? ..).mp ham).1
        omega
    · rcases hcommon with ⟨-, hzero⟩ | ⟨m, n, v, -, hn, -, hbn⟩
      · omega
      · have hlt := ((findNTokensFromString_getElem? ..).mp hbn).1
        omega
    · rcases hcommon with ⟨hzero, hzero'⟩ | ⟨m, n, v, hm, hn, ham, hbn⟩
      · rw [hzero, hzero']
        rfl
      · obtain ⟨-, hfitA, hvA⟩ := (findNTokensFromString_getElem? ..).mp ham
        obtain ⟨-, hfitB, hvB⟩ := (findNTokensFromString_getElem? ..).mp hbn
        -- Both are beginnings of the common string prefix, of the same length.
        have hpreA : strip (ignored exact) (textOf txt (as.take (m + 1))) <+:
            strip (ignored exact) ((textOf txt as).take p.first) := by
          rw [textOf_take]
          exact strip_take_initial _ _ (by omega)
        have hpreB : strip (ignored exact) (textOf txt (bs.take (n + 1))) <+:
            strip (ignored exact) ((textOf txt as).take p.first) := by
          rw [textOf_take, hstr]
          exact strip_take_initial _ _ (by omega)
        rw [hm, hn, List.prefix_iff_eq_take.mp hpreA, List.prefix_iff_eq_take.mp hpreB]
        congr 1
        omega
    · intro x y hx hxa hy hyb hsame
      have hlenA : (textOf txt (as.take x)).length ≤ (textOf txt as).length :=
        (textOf_initial txt (List.take_prefix x as)).length_le
      have hlenB : (textOf txt (bs.take y)).length ≤ (textOf txt bs).length :=
        (textOf_initial txt (List.take_prefix y bs)).length_le
      have hends := hstrEnd _ _ hlenA hlenB
        (by rw [← textOf_take, ← textOf_take]; exact hsame)
      rw [← textOf_take, ← textOf_take] at hends
      rcases hends with ⟨hfitA, hfitB⟩ | hblank
      · refine Or.inl ?_
        have hx' : x - 1 + 1 = x := by omega
        have hy' : y - 1 + 1 = y := by omega
        have ha := (findNTokensFromString_getElem? txt p.first (ignored exact) as 0 0 (x - 1) _).mpr
          ⟨by omega, by rw [hx', Nat.zero_add]; exact hfitA, rfl⟩
        have hb := (findNTokensFromString_getElem? txt p.second (ignored exact) bs 0 0 (y - 1)
          (0 + (strip (ignored exact) (textOf txt (as.take (x - 1 + 1)))).length)).mpr
          ⟨by omega, by rw [hy', Nat.zero_add]; exact hfitB, by rw [hx', hy', hsame]⟩
        obtain ⟨haLt, -⟩ := List.getElem?_eq_some_iff.mp ha
        obtain ⟨hbLt, -⟩ := List.getElem?_eq_some_iff.mp hb
        have hin := hbeyond (x - 1) (y - 1) _ haLt hbLt ha hb
        omega
      · exact Or.inr hblank

end TokenPrefix

end PxqLlama.Server
