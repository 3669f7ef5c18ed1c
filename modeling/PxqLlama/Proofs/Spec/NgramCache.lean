import Mathlib.Data.List.GetD
import Mathlib.Data.List.Range
import Mathlib.Data.ZMod.Basic
import PxqLlama.Lib.Fuel
import PxqLlama.Spec.NgramCache

/-!
# `Proofs.Spec.NgramCache`: the counts are those of the history

`count` is what a cache says of an n-gram and a token, 0 if it knows nothing of them. `followedBy`
is the number of places of a history where the n-gram stands in front of the token.

A count is an `int32_t`, so a sum that does not fit wraps around. Modulo `2 ^ 32` the sums are
exact (`Mod32`), and every count that is stored is an `int32_t` again (`Ranged`). Together this
says what a count is (`count_of_mod`), and that it is the sum exactly where the sum fits
(`toInt_eq_iff`).

* `count_fed`: a cache that is fed a history in chunks counts what the whole history has. A round
  of the code adds one for one place (`count_updateAt`), and the chunks share the places out.
* `count_merge`: a merge adds the counts.
* `Counted.fed`: the assertions of a merge and a save hold of a cache that was fed.
-/

namespace PxqLlama.Spec

open UnorderedMap

/-! ### What a cache says -/

/-- How often the token was counted behind the n-gram. -/
def count (cache : CommonNgramCache) (ngram : CommonNgram) (token : Token) : Int :=
  ((cache.lookup ngram).bind fun part => part.lookup token).getD 0

/-- The count of a token in a part. -/
def partCount (part : CommonNgramCachePart) (token : Token) : Int := (part.lookup token).getD 0

variable {cache : CommonNgramCache} {ngram : CommonNgram} {part : CommonNgramCachePart} {n : Nat}

theorem count_of_some (h : cache.lookup ngram = some part) (token : Token) :
    count cache ngram token = partCount part token := by
  rw [count, h]
  rfl

theorem count_of_none (h : cache.lookup ngram = none) (token : Token) :
    count cache ngram token = 0 := by
  rw [count, h]
  rfl

/-- A part that is put under an n-gram, and what is under the others. -/
theorem count_insert (cache : CommonNgramCache) (ngram ngram' : CommonNgram)
    (part : CommonNgramCachePart) (token : Token) :
    count (cache.insert ngram part) ngram' token
      = if ngram' = ngram then partCount part token else count cache ngram' token := by
  split
  · rename_i heq
    rw [heq]
    exact count_of_some (AList.lookup_insert cache) token
  · rename_i hne
    rw [count, count, AList.lookup_insert_ne hne]

theorem emplace_of_none {κ ν : Type} [DecidableEq κ] {m : Map κ ν} {k : κ}
    (h : m.lookup k = none) (v : ν) : emplace m k v = m.insert k v :=
  if_neg (AList.lookup_eq_none.mp h)

theorem partCount_insert (part : CommonNgramCachePart) (token token' : Token) (c : Int) :
    partCount (part.insert token c) token' = if token' = token then c else partCount part token' := by
  split
  · rename_i heq
    rw [heq, partCount, AList.lookup_insert]
    rfl
  · rename_i hne
    rw [partCount, partCount, AList.lookup_insert_ne hne]

/-! ### Sums that wrap -/

/-- A count up to the wrap of an `int32_t`. -/
abbrev Mod32 := ZMod (2 ^ 32)

/-- The values of an `int32_t`. -/
def InInt32 (z : Int) : Prop := -2 ^ 31 ≤ z ∧ z < 2 ^ 31

instance (z : Int) : Decidable (InInt32 z) := inferInstanceAs (Decidable (_ ∧ _))

/-- Modulo `2 ^ 32` nothing is lost. -/
theorem cast_toInt (z : Int) : ((toInt z : Int) : Mod32) = z :=
  (ZMod.intCast_eq_intCast_iff _ _ _).mpr Int.bmod_emod

/-- What is stored is an `int32_t`. -/
theorem inInt32_toInt (z : Int) : InInt32 (toInt z) := by
  have hlo := @Int.le_bmod z (2 ^ 32) (by decide)
  have hhi := @Int.bmod_lt z (2 ^ 32) (by decide)
  exact ⟨by rw [toInt]; omega, by rw [toInt]; omega⟩

/-- An `int32_t` is known from its value modulo `2 ^ 32`. -/
theorem eq_toInt_of_cast {c z : Int} (hc : InInt32 c) (h : (c : Mod32) = z) : c = toInt z := by
  have hmod : c % (2 ^ 32 : Nat) = z % (2 ^ 32 : Nat) := (ZMod.intCast_eq_intCast_iff' _ _ _).mp h
  rw [toInt, ← Int.emod_bmod, ← hmod, Int.emod_bmod]
  exact (Int.bmod_eq_of_le (by have := hc.1; omega) (by have := hc.2; omega)).symm

/-- A sum that is not too small is stored as it is exactly when it is not too large. -/
theorem toInt_eq_iff {z : Int} (hlo : -2 ^ 31 ≤ z) : toInt z = z ↔ z < 2 ^ 31 := by
  constructor
  · intro h
    have hrange := (inInt32_toInt z).2
    omega
  · intro hhi
    exact Int.bmod_eq_of_le (by omega) (by omega)

/-- The counts of a cache are `int32_t`. -/
def Ranged (cache : CommonNgramCache) : Prop :=
  ∀ ngram part, cache.lookup ngram = some part →
    ∀ token c, part.lookup token = some c → InInt32 c

/-- What a cache says is an `int32_t`, also where it knows nothing. -/
theorem Ranged.count (h : Ranged cache) (ngram : CommonNgram) (token : Token) :
    InInt32 (count cache ngram token) := by
  rw [Spec.count]
  cases hpart : cache.lookup ngram with
  | none => exact (by decide : InInt32 0)
  | some part =>
    cases hc : part.lookup token with
    | none => simp [hc, InInt32]
    | some c => simpa [hc] using h ngram part hpart token c hc

/-- A count is the sum that it stands for, wrapped. -/
theorem count_of_mod (h : Ranged cache) {token : Token} {z : Int}
    (hz : (count cache ngram token : Mod32) = z) : count cache ngram token = toInt z :=
  eq_toInt_of_cast (h.count ngram token) hz

/-- An n-gram gets a part whose counts are `int32_t`. -/
theorem Ranged.insert (h : Ranged cache) (hpart : ∀ t c, part.lookup t = some c → InInt32 c) :
    Ranged (cache.insert ngram part) := by
  intro ngram' part' hsome
  by_cases heq : ngram' = ngram
  · rw [heq, AList.lookup_insert] at hsome
    rw [← Option.some.inj hsome]
    exact hpart
  · rw [AList.lookup_insert_ne heq] at hsome
    exact h ngram' part' hsome

/-- A token of a part gets a count that is an `int32_t`. -/
theorem ranged_part_insert {part : CommonNgramCachePart}
    (h : ∀ t c, part.lookup t = some c → InInt32 c) {token : Token} {c : Int} (hc : InInt32 c) :
    ∀ t c', (part.insert token c).lookup t = some c' → InInt32 c' := by
  intro t c' hsome
  by_cases heq : t = token
  · rw [heq, AList.lookup_insert] at hsome
    rw [← Option.some.inj hsome]
    exact hc
  · rw [AList.lookup_insert_ne heq] at hsome
    exact h t c' hsome

/-- Each of the three branches of an update counts one more of the token. -/
theorem count_countToken (cache : CommonNgramCache) (ngram ngram' : CommonNgram)
    (token token' : Token) :
    (count (countToken cache ngram token) ngram' token' : Mod32)
      = count cache ngram' token' + if ngram' = ngram ∧ token' = token then 1 else 0 := by
  have hcount : ∀ part, (∀ t, (partCount part t : Mod32)
        = count cache ngram t + if t = token then 1 else 0) →
      (count (cache.insert ngram part) ngram' token' : Mod32)
        = count cache ngram' token' + if ngram' = ngram ∧ token' = token then 1 else 0 := by
    intro part hpart
    rw [count_insert]
    by_cases heq : ngram' = ngram
    · rw [if_pos heq, hpart, heq]
      simp only [true_and]
    · simp only [heq, false_and, if_false, add_zero]
  rw [countToken]
  split
  · rename_i hnone
    rw [emplace_of_none hnone]
    apply hcount
    intro t
    rw [emplace_of_none (AList.lookup_empty token), partCount_insert, count_of_none hnone,
      Int.cast_zero, zero_add]
    split
    · exact Int.cast_one
    · exact Int.cast_zero
  · rename_i part hsome
    split
    · rename_i hnone
      apply hcount
      intro t
      rw [emplace_of_none hnone, partCount_insert, count_of_some hsome]
      split
      · rename_i heq
        rw [heq, partCount, hnone, Option.getD_none, Int.cast_zero, Int.cast_one, zero_add]
      · rw [add_zero]
    · rename_i c hc
      apply hcount
      intro t
      rw [partCount_insert, count_of_some hsome]
      split
      · rename_i heq
        rw [heq, partCount, hc, cast_toInt, Option.getD_some, Int.cast_add, Int.cast_one]
      · rw [add_zero]

/-- A loop that adds a weight in the rounds that meet a condition. -/
theorem foldl_countP {σ ι : Type} {f : σ → ι → σ} (measure : σ → Mod32) {p : ι → Bool} {w : Mod32}
    {l : List ι} (h : ∀ s, ∀ i ∈ l, measure (f s i) = measure s + if p i then w else 0) (s : σ) :
    measure (l.foldl f s) = measure s + l.countP p * w := by
  induction l generalizing s with
  | nil =>
    rw [List.foldl_nil, List.countP_nil, Nat.cast_zero, zero_mul, add_zero]
  | cons i l ih =>
    rw [List.foldl_cons, ih (fun s i hi => h s i (List.mem_cons_of_mem _ hi)),
      h s i List.mem_cons_self, List.countP_cons]
    split
    · rw [Nat.cast_add, Nat.cast_one]
      ring
    · rw [add_zero, add_zero]

/-! ### The places of an n-gram -/

/-- The number of places of a history where the n-gram stands in front of the token. -/
def followedBy (history gram : List Token) (token : Token) : Nat :=
  (List.range history.length).countP fun i => gram ++ [token] <:+ history.take (i + 1)

/-- N-grams of tokens are told apart, also when they have different sizes: what an n-gram is filled
up with is no token. -/
theorem commonNgram_inj {gram gram' : List Token} (hnull : llamaTokenNull ∉ gram)
    (hnull' : llamaTokenNull ∉ gram') (hlen : gram.length ≤ llamaNgramMax)
    (hlen' : gram'.length ≤ llamaNgramMax) :
    commonNgram gram gram.length = commonNgram gram' gram'.length ↔ gram = gram' := by
  constructor
  · intro heq
    apply List.ext_getElem?
    intro i
    by_cases hi : i < llamaNgramMax
    · have hat := congrFun heq ⟨i, hi⟩
      simp only [commonNgram] at hat
      by_cases hin : i < gram.length
      · by_cases hin' : i < gram'.length
        · rw [if_pos hin, if_pos hin', List.getD_eq_getElem _ _ hin,
            List.getD_eq_getElem _ _ hin'] at hat
          rw [List.getElem?_eq_getElem hin, List.getElem?_eq_getElem hin', hat]
        · rw [if_pos hin, if_neg hin', List.getD_eq_getElem _ _ hin] at hat
          exact absurd (List.getElem_mem hin) (hat ▸ hnull)
      · by_cases hin' : i < gram'.length
        · rw [if_neg hin, if_pos hin', List.getD_eq_getElem _ _ hin'] at hat
          exact absurd (List.getElem_mem hin') (hat ▸ hnull')
        · rw [List.getElem?_eq_none (by omega), List.getElem?_eq_none (by omega)]
    · rw [List.getElem?_eq_none (by omega), List.getElem?_eq_none (by omega)]
  · intro heq
    rw [heq]

/-- Only the first tokens of an array are taken. -/
theorem commonNgram_take {input : List Token} {ngramSize : Nat} (h : ngramSize ≤ input.length) :
    commonNgram input ngramSize
      = commonNgram (input.take ngramSize) (input.take ngramSize).length := by
  funext i
  rw [List.length_take, Nat.min_eq_left h, commonNgram, commonNgram]
  split
  · rename_i hlt
    rw [List.getD_eq_getElem?_getD, List.getD_eq_getElem?_getD, List.getElem?_take_of_lt hlt]
  · rfl

section
variable {inp gram : List Token} {token : Token} {i ngramSize : Nat}

/-- The tokens in front of a place, and the one at the place. -/
theorem suffix_take_iff (hsize : ngramSize ≤ i) (hi : i < inp.length)
    (hgram : gram.length = ngramSize) :
    gram ++ [token] <:+ inp.take (i + 1) ↔
      (inp.drop (i - ngramSize)).take ngramSize = gram ∧ inp.getD i llamaTokenNull = token := by
  have hwindow : inp.take (i + 1)
      = inp.take (i - ngramSize) ++ ((inp.drop (i - ngramSize)).take ngramSize ++ [inp[i]]) := by
    rw [List.take_succ_eq_append_getElem hi, ← List.append_assoc, List.append_left_inj,
      ← List.take_add, Nat.sub_add_cancel hsize]
  have hlength : ((inp.drop (i - ngramSize)).take ngramSize).length = gram.length := by
    rw [List.length_take, List.length_drop]
    omega
  rw [List.getD_eq_getElem _ _ hi, hwindow]
  constructor
  · intro hsuffix
    have hle : (gram ++ [token]).length
        ≤ ((inp.drop (i - ngramSize)).take ngramSize ++ [inp[i]]).length := by
      rw [List.length_append, List.length_append, hlength, List.length_singleton]
      exact Nat.le_refl _
    have hends := List.suffix_of_suffix_length_le hsuffix (List.suffix_append _ _) hle
    have heq : gram ++ [token] = (inp.drop (i - ngramSize)).take ngramSize ++ [inp[i]] :=
      hends.eq_of_length (by simp only [List.length_append, hlength, List.length_singleton])
    obtain ⟨hgrams, htokens⟩ := List.append_inj heq hlength.symm
    exact ⟨hgrams.symm, (List.cons.inj htokens).1.symm⟩
  · intro hboth
    rw [hboth.1, hboth.2]
    exact List.suffix_append _ _

/-- A round counts one for an n-gram and a token that end at its place. -/
theorem count_updateAt (cache : CommonNgramCache) (hnull : llamaTokenNull ∉ inp)
    (hgram : llamaTokenNull ∉ gram) (hlen : gram.length ≤ llamaNgramMax)
    (hmax : ngramSize ≤ llamaNgramMax) (hsize : ngramSize ≤ i) (hi : i < inp.length) :
    (count (updateAt inp ngramSize cache i) (commonNgram gram gram.length) token : Mod32)
      = count cache (commonNgram gram gram.length) token
        + if ngramSize = gram.length ∧ gram ++ [token] <:+ inp.take (i + 1) then 1 else 0 := by
  have hdrop : ngramSize ≤ (inp.drop (i - ngramSize)).length := by
    rw [List.length_drop]
    omega
  have hwindow : ((inp.drop (i - ngramSize)).take ngramSize).length = ngramSize := by
    rw [List.length_take]
    omega
  have hnull' : llamaTokenNull ∉ (inp.drop (i - ngramSize)).take ngramSize := fun hmem =>
    hnull (List.mem_of_mem_drop (List.mem_of_mem_take hmem))
  have hiff : (commonNgram gram gram.length = commonNgram (inp.drop (i - ngramSize)) ngramSize ∧
        token = inp.getD i llamaTokenNull) ↔
      ngramSize = gram.length ∧ gram ++ [token] <:+ inp.take (i + 1) := by
    rw [commonNgram_take hdrop, commonNgram_inj hgram hnull' hlen (hwindow.symm ▸ hmax)]
    constructor
    · intro hboth
      have hsame : ngramSize = gram.length := by
        rw [hboth.1, hwindow]
      exact ⟨hsame, (suffix_take_iff hsize hi hsame.symm).mpr ⟨hboth.1.symm, hboth.2.symm⟩⟩
    · intro hboth
      have hends := (suffix_take_iff hsize hi hboth.1.symm).mp hboth.2
      exact ⟨hends.1.symm, hends.2.symm⟩
  rw [updateAt, count_countToken]
  simp only [hiff]

end

/-- The places from the first one that an n-gram fits in front of. -/
theorem countP_from {inp gram : List Token} {token : Token} (start : Nat)
    (hle : start ≤ inp.length) :
    (List.range' (max start gram.length) (inp.length - max start gram.length)).countP
        (fun i => gram ++ [token] <:+ inp.take (i + 1))
      = (List.range' start (inp.length - start)).countP
        (fun i => gram ++ [token] <:+ inp.take (i + 1)) := by
  by_cases hfits : gram.length ≤ start
  · rw [Nat.max_eq_left hfits]
  · rw [Nat.max_eq_right (by omega)]
    have hnone : ∀ i, i < gram.length → ¬ gram ++ [token] <:+ inp.take (i + 1) := by
      intro i hi hsuffix
      have hlength := hsuffix.length_le
      rw [List.length_append, List.length_take, List.length_singleton] at hlength
      omega
    by_cases hshort : inp.length < gram.length
    · rw [Nat.sub_eq_zero_of_le (by omega), List.range'_zero, List.countP_nil, eq_comm,
        List.countP_eq_zero]
      intro i hi
      rw [List.mem_range'_1] at hi
      simp only [decide_eq_true_eq]
      exact hnone i (by omega)
    · have hsplit : List.range' start (inp.length - start)
          = List.range' start (gram.length - start)
            ++ List.range' gram.length (inp.length - gram.length) := by
        have hgram : start + (gram.length - start) = gram.length := by omega
        have happend : List.range' start (gram.length - start)
              ++ List.range' (start + (gram.length - start)) (inp.length - gram.length)
            = List.range' start (gram.length - start + (inp.length - gram.length)) :=
          List.range'_append_1
        rw [hgram] at happend
        rw [happend]
        congr 1
        omega
      have hzero : (List.range' start (gram.length - start)).countP
          (fun i => gram ++ [token] <:+ inp.take (i + 1)) = 0 := by
        rw [List.countP_eq_zero]
        intro i hi
        rw [List.mem_range'_1] at hi
        simp only [decide_eq_true_eq]
        exact hnone i (by omega)
      rw [hsplit, List.countP_append, hzero, Nat.zero_add]

/-! ### Updates -/

section
variable {inp gram : List Token} {token : Token} {nnew ngramMin ngramMax : Nat}

/-- The new places of the history where the n-gram stands in front of the token. -/
def newPlaces (inp gram : List Token) (token : Token) (nnew : Nat) : Nat :=
  (List.range' (inp.length - nnew) (inp.length - (inp.length - nnew))).countP fun i =>
    gram ++ [token] <:+ inp.take (i + 1)

/-- An update for one size counts the new places of an n-gram of this size. -/
theorem count_updateSize (cache : CommonNgramCache) {ngramSize : Nat}
    (hnull : llamaTokenNull ∉ inp) (hgram : llamaTokenNull ∉ gram)
    (hlen : gram.length ≤ llamaNgramMax) (hmax : ngramSize ≤ llamaNgramMax) :
    (count (updateSize inp nnew cache ngramSize) (commonNgram gram gram.length) token : Mod32)
      = count cache (commonNgram gram gram.length) token
        + if ngramSize == gram.length then (newPlaces inp gram token nnew : Mod32) else 0 := by
  have hround : ∀ cache, ∀ i ∈ List.range' (iStart inp nnew ngramSize)
        (inp.length - iStart inp nnew ngramSize),
      (count (updateAt inp ngramSize cache i) (commonNgram gram gram.length) token : Mod32)
        = count cache (commonNgram gram gram.length) token
          + if decide (ngramSize = gram.length ∧ gram ++ [token] <:+ inp.take (i + 1)) = true
            then 1 else 0 := by
    intro cache i hi
    rw [List.mem_range'_1] at hi
    have hstart : ngramSize ≤ iStart inp nnew ngramSize := Nat.le_max_right _ _
    rw [count_updateAt cache hnull hgram hlen hmax (by omega) (by omega)]
    simp only [decide_eq_true_eq]
  show (count (List.foldl _ cache _) _ token : Mod32) = _
  rw [foldl_countP (fun cache => (count cache (commonNgram gram gram.length) token : Mod32)) hround,
    mul_one]
  by_cases hsize : ngramSize = gram.length
  · rw [if_pos (beq_iff_eq.mpr hsize), newPlaces, ← countP_from _ (by omega), hsize, iStart]
    simp only [true_and]
  · rw [if_neg (by simpa using hsize), List.countP_eq_zero.mpr, Nat.cast_zero]
    intro i _
    simp only [hsize, false_and, decide_false, Bool.false_eq_true, not_false_eq_true]

/-- An update counts the new places of every n-gram, modulo `2 ^ 32`. -/
theorem count_update (cache : CommonNgramCache) (hnull : llamaTokenNull ∉ inp)
    (hgram : llamaTokenNull ∉ gram) (hmax : ngramMax ≤ llamaNgramMax)
    (hlo : ngramMin ≤ gram.length) (hhi : gram.length ≤ ngramMax) :
    (count (commonNgramCacheUpdate cache ngramMin ngramMax inp nnew)
        (commonNgram gram gram.length) token : Mod32)
      = count cache (commonNgram gram gram.length) token + newPlaces inp gram token nnew := by
  have hround : ∀ cache, ∀ ngramSize ∈ List.range' ngramMin (ngramMax + 1 - ngramMin),
      (count (updateSize inp nnew cache ngramSize) (commonNgram gram gram.length) token : Mod32)
        = count cache (commonNgram gram gram.length) token
          + if ngramSize == gram.length then (newPlaces inp gram token nnew : Mod32) else 0 := by
    intro cache ngramSize hsize
    rw [List.mem_range'_1] at hsize
    exact count_updateSize cache hnull hgram (by omega) (by omega)
  have hmem : gram.length ∈ List.range' ngramMin (ngramMax + 1 - ngramMin) := by
    rw [List.mem_range'_1]
    omega
  have hone : (List.range' ngramMin (ngramMax + 1 - ngramMin)).countP (· == gram.length) = 1 :=
    List.count_eq_one_of_mem List.nodup_range' hmem
  show (count (List.foldl _ cache _) _ token : Mod32) = _
  rw [foldl_countP (fun cache => (count cache (commonNgram gram gram.length) token : Mod32)) hround,
    hone, Nat.cast_one, one_mul]

/-- A history that is longer has the new places besides the old ones. -/
theorem followedBy_append (history chunk gram : List Token) (token : Token) :
    followedBy (history ++ chunk) gram token
      = followedBy history gram token + newPlaces (history ++ chunk) gram token chunk.length := by
  have hlength : (history ++ chunk).length = history.length + chunk.length := List.length_append
  have hnew : (history ++ chunk).length - chunk.length = history.length := by omega
  have hrest : (history ++ chunk).length - history.length = chunk.length := by omega
  rw [followedBy, followedBy, newPlaces, hnew, hrest, hlength, List.range_add, List.countP_append,
    List.range'_eq_map_range]
  congr 1
  apply List.countP_congr
  intro i hi
  rw [List.mem_range] at hi
  rw [List.take_append_of_le_length (by omega)]

end

/-- A cache that is fed a history in chunks, and the history. -/
def feed (ngramMin ngramMax : Nat) (fed : CommonNgramCache × List Token) (chunk : List Token) :
    CommonNgramCache × List Token :=
  (commonNgramCacheUpdate fed.1 ngramMin ngramMax (fed.2 ++ chunk) chunk.length, fed.2 ++ chunk)

/-- Each chunk counts its own places, so the order of the chunks tells nothing from the history at
once. -/
theorem count_feed (ngramMin ngramMax : Nat) {gram : List Token} (token : Token)
    (hgram : llamaTokenNull ∉ gram) (hmax : ngramMax ≤ llamaNgramMax)
    (hlo : ngramMin ≤ gram.length) (hhi : gram.length ≤ ngramMax)
    (chunks : List (List Token)) (fed : CommonNgramCache × List Token)
    (hnull : llamaTokenNull ∉ fed.2 ++ chunks.flatten)
    (hfed : (count fed.1 (commonNgram gram gram.length) token : Mod32)
      = followedBy fed.2 gram token) :
    (count (chunks.foldl (feed ngramMin ngramMax) fed).1 (commonNgram gram gram.length) token
      : Mod32) = followedBy (fed.2 ++ chunks.flatten) gram token := by
  induction chunks generalizing fed with
  | nil =>
    rw [List.flatten_nil, List.append_nil]
    exact hfed
  | cons chunk chunks ih =>
    rw [List.flatten_cons, ← List.append_assoc] at hnull ⊢
    apply ih (feed ngramMin ngramMax fed chunk) hnull
    have hchunk : llamaTokenNull ∉ fed.2 ++ chunk := fun hmem =>
      hnull (List.mem_append_left _ hmem)
    show (count (commonNgramCacheUpdate fed.1 ngramMin ngramMax (fed.2 ++ chunk) chunk.length) _ token
      : Mod32) = followedBy (fed.2 ++ chunk) gram token
    rw [count_update fed.1 hchunk hgram hmax hlo hhi, hfed, followedBy_append, Nat.cast_add]

/-- The cache of a history that is fed in chunks. -/
def fedCache (ngramMin ngramMax : Nat) (chunks : List (List Token)) : CommonNgramCache :=
  (chunks.foldl (feed ngramMin ngramMax) (∅, [])).1

/-! ### What the loops keep -/

/-- A loop of which every round raises a bound by so much. -/
theorem foldl_grows {σ ι : Type} {P : Nat → σ → Prop} {f : σ → ι → σ} {k : Nat} (l : List ι)
    (hf : ∀ n s, ∀ i ∈ l, P n s → P (n + k) (f s i)) {s : σ} (h : P n s) :
    P (n + l.length * k) (l.foldl f s) := by
  induction l generalizing n s with
  | nil => simpa using h
  | cons i l ih =>
    have hnext := hf n s i List.mem_cons_self h
    have hrest := ih (fun n s i hi => hf n s i (List.mem_cons_of_mem _ hi)) hnext
    have hsum : n + (i :: l).length * k = n + k + l.length * k := by
      rw [List.length_cons]
      ring
    rw [hsum]
    exact hrest

/-- What one more of a token keeps, an update keeps, with a bound that goes up by one for each token
that is counted. -/
theorem update_grows {P : Nat → CommonNgramCache → Prop}
    (hP : ∀ n cache ngram token, P n cache → P (n + 1) (countToken cache ngram token))
    (hmono : ∀ n m cache, n ≤ m → P n cache → P m cache) (h : P n cache) (ngramMin ngramMax : Nat)
    (inp : List Token) (nnew : Nat) :
    P (n + (ngramMax + 1 - ngramMin) * nnew)
      (commonNgramCacheUpdate cache ngramMin ngramMax inp nnew) := by
  have hsizes := foldl_grows (P := P) (k := nnew) (f := updateSize inp nnew)
    (List.range' ngramMin (ngramMax + 1 - ngramMin)) (fun n cache ngramSize _ h => ?_) h
  · rw [List.length_range'] at hsizes
    exact hsizes
  · have hrounds := foldl_grows (P := P) (k := 1) (f := updateAt inp ngramSize)
      (List.range' (iStart inp nnew ngramSize) (inp.length - iStart inp nnew ngramSize))
      (fun n cache i _ h => hP n cache _ _ h) h
    refine hmono _ _ _ ?_ hrounds
    have hstart : inp.length - nnew ≤ iStart inp nnew ngramSize := Nat.le_max_left _ _
    rw [List.length_range']
    omega

/-- And so does a history that is fed in chunks. -/
theorem feed_grows {P : Nat → CommonNgramCache → Prop}
    (hP : ∀ n cache ngram token, P n cache → P (n + 1) (countToken cache ngram token))
    (hmono : ∀ n m cache, n ≤ m → P n cache → P m cache) (ngramMin ngramMax : Nat)
    (chunks : List (List Token)) {n : Nat} {fed : CommonNgramCache × List Token} (h : P n fed.1) :
    P (n + (ngramMax + 1 - ngramMin) * chunks.flatten.length)
      (chunks.foldl (feed ngramMin ngramMax) fed).1 := by
  induction chunks generalizing n fed with
  | nil => exact h
  | cons chunk chunks ih =>
    have hrest := @ih _ (feed ngramMin ngramMax fed chunk)
      (update_grows hP hmono h ngramMin ngramMax (fed.2 ++ chunk) chunk.length)
    rw [List.flatten_cons, List.length_append, Nat.mul_add, ← Nat.add_assoc]
    exact hrest

theorem Ranged.countToken (h : Ranged cache) (ngram : CommonNgram) (token : Token) :
    Ranged (countToken cache ngram token) := by
  have hone : InInt32 1 := by decide
  rw [Spec.countToken]
  split
  · rename_i hnone
    rw [emplace_of_none hnone, emplace_of_none (AList.lookup_empty token)]
    exact h.insert (@ranged_part_insert ∅ (fun t c hc => nomatch hc) token 1 hone)
  · rename_i part hsome
    split
    · rename_i hnone
      rw [emplace_of_none hnone]
      exact h.insert (ranged_part_insert (h ngram part hsome) hone)
    · exact h.insert (ranged_part_insert (h ngram part hsome) (inInt32_toInt _))

theorem ranged_empty : Ranged ∅ := fun _ _ h => nomatch h

/-- The counts of a cache that was fed are `int32_t`. -/
theorem ranged_fed (ngramMin ngramMax : Nat) (chunks : List (List Token)) :
    Ranged (fedCache ngramMin ngramMax chunks) :=
  @feed_grows (fun _ cache => Ranged cache) (fun _ _ _ _ h => h.countToken _ _)
    (fun _ _ _ _ h => h) ngramMin ngramMax chunks 0 (∅, []) ranged_empty

/-- A history that is fed in chunks is counted as a whole, up to the wrap. -/
theorem count_fed (ngramMin ngramMax : Nat) (chunks : List (List Token)) (gram : List Token)
    (token : Token) (hnull : llamaTokenNull ∉ chunks.flatten) (hgram : llamaTokenNull ∉ gram)
    (hmax : ngramMax ≤ llamaNgramMax) (hlo : ngramMin ≤ gram.length)
    (hhi : gram.length ≤ ngramMax) :
    count (fedCache ngramMin ngramMax chunks) (commonNgram gram gram.length) token
      = toInt (followedBy chunks.flatten gram token) := by
  refine count_of_mod (ranged_fed ngramMin ngramMax chunks) ?_
  have hempty : (count (∅ : CommonNgramCache) (commonNgram gram gram.length) token : Mod32)
      = followedBy [] gram token := by
    rw [count_of_none (AList.lookup_empty _)]
    exact (Int.cast_zero : ((0 : Int) : Mod32) = 0).trans Nat.cast_zero.symm
  rw [Int.cast_natCast]
  exact count_feed ngramMin ngramMax token hgram hmax hlo hhi chunks (∅, []) hnull hempty

/-! ### Merges -/

/-- What the assertions of a merge and of a save ask for: no part is empty, and what is counted was
seen. -/
structure Counted (cache : CommonNgramCache) : Prop where
  filled : ∀ ngram part, cache.lookup ngram = some part → pairs part ≠ []
  positive : ∀ ngram part, cache.lookup ngram = some part →
    ∀ token c, part.lookup token = some c → 0 < c

theorem pairs_insert_ne_nil {κ ν : Type} [DecidableEq κ] (m : Map κ ν) (k : κ) (v : ν) :
    pairs (m.insert k v) ≠ [] := by
  have hmem : (k, v) ∈ pairs (m.insert k v) := mem_pairs.mpr (AList.lookup_insert m)
  exact List.ne_nil_of_mem hmem

/-- No count is negative. -/
theorem Counted.count_nonneg (h : Counted cache) (ngram : CommonNgram) (token : Token) :
    0 ≤ count cache ngram token := by
  rw [count]
  cases hpart : cache.lookup ngram with
  | none => exact Int.le_refl 0
  | some part =>
    cases hc : part.lookup token with
    | none => simp [hc]
    | some c => simpa [hc] using (h.positive ngram part hpart token c hc).le

/-- A cache whose counts are between one and a bound. -/
structure CountedTo (n : Nat) (cache : CommonNgramCache) : Prop where
  filled : ∀ ngram part, cache.lookup ngram = some part → pairs part ≠ []
  bounds : ∀ ngram part, cache.lookup ngram = some part →
    ∀ token c, part.lookup token = some c → 0 < c ∧ c ≤ n

theorem CountedTo.counted (h : CountedTo n cache) : Counted cache :=
  ⟨h.filled, fun ngram part hsome token c hc => (h.bounds ngram part hsome token c hc).1⟩

theorem CountedTo.mono {m : Nat} (hle : n ≤ m) (h : CountedTo n cache) : CountedTo m cache :=
  ⟨h.filled, fun ngram part hsome token c hc => by
    have hbounds := h.bounds ngram part hsome token c hc
    omega⟩

/-- A part that is filled and counted, under an n-gram. -/
theorem CountedTo.insert (h : CountedTo n cache) {token : Token} {c : Int} (hc : 0 < c ∧ c ≤ n)
    (hpart : ∀ t c, part.lookup t = some c → 0 < c ∧ c ≤ n) :
    CountedTo n (cache.insert ngram (part.insert token c)) := by
  have hlookup : ∀ ngram' part', (cache.insert ngram (part.insert token c)).lookup ngram'
        = some part' → part' = part.insert token c ∨ cache.lookup ngram' = some part' := by
    intro ngram' part' hsome
    by_cases heq : ngram' = ngram
    · rw [heq, AList.lookup_insert] at hsome
      exact Or.inl (Option.some.inj hsome).symm
    · rw [AList.lookup_insert_ne heq] at hsome
      exact Or.inr hsome
  constructor
  · intro ngram' part' hsome
    rcases hlookup ngram' part' hsome with heq | hold
    · rw [heq]
      exact pairs_insert_ne_nil part token c
    · exact h.filled ngram' part' hold
  · intro ngram' part' hsome t c' hc'
    rcases hlookup ngram' part' hsome with heq | hold
    · rw [heq] at hc'
      by_cases ht : t = token
      · rw [ht, AList.lookup_insert] at hc'
        rw [← Option.some.inj hc']
        exact hc
      · rw [AList.lookup_insert_ne ht] at hc'
        exact hpart t c' hc'
    · exact h.bounds ngram' part' hold t c' hc'

theorem countedTo_empty : CountedTo 0 ∅ where
  filled _ _ h := nomatch h
  bounds _ _ h := nomatch h

/-- One more of a token, as long as the count fits. -/
theorem CountedTo.countToken (h : CountedTo n cache) (hn : n + 1 < 2 ^ 31) (ngram : CommonNgram)
    (token : Token) : CountedTo (n + 1) (countToken cache ngram token) := by
  have hnext := h.mono (Nat.le_succ n)
  have hone : (0 : Int) < 1 ∧ (1 : Int) ≤ (n + 1 : Nat) := ⟨Int.one_pos, by omega⟩
  rw [Spec.countToken]
  split
  · rename_i hnone
    rw [emplace_of_none hnone, emplace_of_none (AList.lookup_empty token)]
    exact hnext.insert hone fun t c hc => nomatch hc
  · rename_i part hsome
    split
    · rename_i hnone
      rw [emplace_of_none hnone]
      exact hnext.insert hone (hnext.bounds ngram part hsome)
    · rename_i c hc
      have hold := h.bounds ngram part hsome token c hc
      have hsum : toInt (c + 1) = c + 1 := (toInt_eq_iff (by omega)).mpr (by omega)
      rw [hsum]
      exact hnext.insert (by omega) (hnext.bounds ngram part hsome)

/-- A cache that was fed passes the assertions, as long as the places that were counted are fewer
than an `int32_t` can tell. -/
theorem Counted.fed {ngramMin ngramMax : Nat} {chunks : List (List Token)}
    (hfits : (ngramMax + 1 - ngramMin) * chunks.flatten.length < 2 ^ 31) :
    Counted (fedCache ngramMin ngramMax chunks) := by
  have hfed := @feed_grows (fun n cache => n < 2 ^ 31 → CountedTo n cache)
    (fun n cache ngram token h hn => (h (by omega)).countToken hn ngram token)
    (fun n m cache hle h hm => (h (by omega)).mono hle) ngramMin ngramMax chunks 0 (∅, [])
    fun _ => countedTo_empty
  rw [Nat.zero_add] at hfed
  exact (hfed hfits).counted

/-- The counts of a part, up to the wrap. -/
def partMod (part : CommonNgramCachePart) (token : Token) : Mod32 := partCount part token

/-- The counts behind an n-gram, up to the wrap. -/
def countMod (cache : CommonNgramCache) (ngram : CommonNgram) (token : Token) : Mod32 :=
  count cache ngram token

/-- Merging a count adds it to its own token. -/
theorem mergeCount_adds (part : CommonNgramCachePart) (token : Token) (c : Int) (hc : 0 < c) :
    ∃ merged, mergeCount part (token, c) = some merged ∧ ∀ t,
      partMod merged t = partMod part t + if t = token then (c : Mod32) else 0 := by
  rw [mergeCount, if_neg (by omega)]
  split
  · rename_i hnone
    refine ⟨_, rfl, fun t => ?_⟩
    rw [emplace_of_none hnone, partMod, partMod, partCount_insert]
    split
    · rename_i heq
      rw [heq, partCount, hnone, Option.getD_none, Int.cast_zero, zero_add]
    · rw [add_zero]
  · rename_i old hold
    refine ⟨_, rfl, fun t => ?_⟩
    rw [partMod, partMod, partCount_insert]
    split
    · rename_i heq
      rw [heq, partCount, hold, Option.getD_some, cast_toInt, Int.cast_add]
    · rw [add_zero]

/-- Merging a part adds its counts, modulo `2 ^ 32`. -/
theorem mergePart_adds (target : CommonNgramCache) (ngram : CommonNgram)
    (part : CommonNgramCachePart) (hpart : ∀ e ∈ pairs part, 0 < e.2) :
    ∃ merged, mergePart target (ngram, part) = some merged ∧ ∀ ngram', countMod merged ngram'
      = countMod target ngram' + if ngram' = ngram then partMod part else 0 := by
  rw [mergePart]
  split
  · rename_i hnone
    refine ⟨_, rfl, fun ngram' => funext fun t => ?_⟩
    rw [emplace_of_none hnone, countMod, count_insert, Pi.add_apply]
    split
    · rename_i heq
      rw [heq, countMod, count_of_none hnone, Int.cast_zero, zero_add, partMod]
    · rw [Pi.zero_apply, add_zero, countMod]
  · rename_i old hold
    obtain ⟨merged, hmerged, hsum⟩ :=
      foldlM_adds mergeCount_adds (nodup_pairs part) hpart old
    refine ⟨target.insert ngram merged, ?_, fun ngram' => funext fun t => ?_⟩
    · rw [hmerged]
      rfl
    · rw [countMod, count_insert, Pi.add_apply]
      split
      · rename_i heq
        have hpartSum : (partCount merged t : Mod32)
            = partCount old t + (((pairs part).lookup t).map fun c : Int => (c : Mod32)).getD 0 :=
          hsum t
        rw [hpartSum, heq, countMod, count_of_some hold, lookup_pairs, partMod]
        congr 1
        rw [partCount]
        cases part.lookup t with
        | none => exact Int.cast_zero.symm
        | some c => rfl
      · rw [Pi.zero_apply, add_zero, countMod]

/-- The counts of a merged cache are `int32_t` again. -/
theorem Ranged.mergePart {target merged : CommonNgramCache} (h : Ranged target)
    (hpart : ∀ t c, part.lookup t = some c → InInt32 c)
    (hmerged : mergePart target (ngram, part) = some merged) : Ranged merged := by
  simp only [Spec.mergePart] at hmerged
  split at hmerged
  · rename_i hnone
    rw [emplace_of_none hnone] at hmerged
    rw [← Option.some.inj hmerged]
    exact h.insert hpart
  · rename_i old hold
    obtain ⟨sum, hsum, heq⟩ := Option.bind_eq_some_iff.mp hmerged
    rw [← Option.some.inj heq]
    refine h.insert (foldlM_invariant (P := fun part : CommonNgramCachePart =>
      ∀ t c, part.lookup t = some c → InInt32 c) hsum (h ngram old hold) ?_)
    rintro old ⟨token, c⟩ new hmem hold hnew
    simp only [mergeCount] at hnew
    split at hnew
    · cases hnew
    · split at hnew
      · rename_i hnone
        rw [emplace_of_none hnone] at hnew
        rw [← Option.some.inj hnew]
        exact ranged_part_insert hold (hpart token c (mem_pairs.mp hmem))
      · rw [← Option.some.inj hnew]
        exact ranged_part_insert hold (inInt32_toInt _)

/-- A merge adds what the added cache says, for every n-gram and every token, up to the wrap. -/
theorem count_merge {target add : CommonNgramCache} (htarget : Ranged target) (hadd : Ranged add)
    (hcounted : Counted add) :
    ∃ merged, commonNgramCacheMerge target add = some merged ∧ ∀ ngram token,
      count merged ngram token = toInt (count target ngram token + count add ngram token) := by
  have hparts : ∀ e ∈ pairs add, ∀ e' ∈ pairs e.2, 0 < e'.2 := fun e he e' he' =>
    hcounted.positive e.1 e.2 (mem_pairs.mp he) e'.1 e'.2 (mem_pairs.mp he')
  obtain ⟨merged, hmerged, hsum⟩ :=
    foldlM_adds mergePart_adds (nodup_pairs add) hparts target
  have hranged : Ranged merged := foldlM_invariant hmerged htarget
    fun _ e _ he h hstep => h.mergePart (hadd e.1 e.2 (mem_pairs.mp he)) hstep
  refine ⟨merged, hmerged, fun ngram token => count_of_mod hranged ?_⟩
  have hmod : (count merged ngram token : Mod32)
      = (countMod target ngram + (((pairs add).lookup ngram).map partMod).getD 0) token :=
    congrFun (hsum ngram) token
  rw [hmod, Pi.add_apply, lookup_pairs, countMod, Int.cast_add]
  congr 1
  rw [count]
  cases hlookup : add.lookup ngram with
  | none => exact Int.cast_zero.symm
  | some part => rfl

end PxqLlama.Spec
