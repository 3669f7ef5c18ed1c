import PxqLlama.Lib.Attempt
import PxqLlama.Lib.Rows
import PxqLlama.Proofs.Spec.NgramCache

/-!
# `Proofs.Spec.NgramCacheFile`: a saved cache is loaded again

Every loop of `common_ngram_cache_load` reads what the loop of `common_ngram_cache_save` wrote, and
leaves the rest of the file (`loadCounts_append`, `loadParts_append`). The loaded maps are filled in
the order of the file, so they answer like the saved ones (`SameCounts`).
-/

namespace PxqLlama.Spec

open UnorderedMap Wire

theorem decodeInt_encodeInt_four {z : Int} (h : InInt32 z) : decodeInt (encodeInt 4 z) = z := by
  obtain ⟨hlo, hhi⟩ := h
  apply decodeInt_encodeInt
  · show -(4294967296 : Int) ≤ 2 * z
    omega
  · show 2 * z < (4294967296 : Int)
    omega

/-- The tokens and counts of a part can be stored, and there are some. -/
structure StorablePart (part : CommonNgramCachePart) : Prop where
  filled : pairs part ≠ []
  size : (pairs part).length < 2 ^ 31
  tokens : ∀ e ∈ pairs part, InInt32 e.1
  counts : ∀ e ∈ pairs part, 0 < e.2 ∧ InInt32 e.2

/-- A cache of `int32_t` values that the assertions of a save accept. -/
structure Storable (cache : CommonNgramCache) : Prop where
  ngrams : ∀ e ∈ pairs cache, ∀ i, InInt32 (e.1 i)
  parts : ∀ e ∈ pairs cache, StorablePart e.2

/-- Two caches say the same of every n-gram. -/
def SameCounts (cache cache' : CommonNgramCache) : Prop :=
  ∀ ngram, (cache.lookup ngram).map (fun part token => part.lookup token)
    = (cache'.lookup ngram).map fun part token => part.lookup token

theorem readBytes_append {n : Nat} {bytes : List UInt8} (h : bytes.length = n)
    (rest : List UInt8) : readBytes n (bytes ++ rest) = some (bytes, rest) := by
  rw [readBytes, if_pos (by rw [List.length_append]; omega), List.take_left' h, List.drop_left' h]

/-! ### The tokens of an n-gram -/

/-- What is written for a token and its count. -/
def countBytes (e : Token × Int) : List UInt8 := encodeInt 4 e.1 ++ encodeInt 4 e.2

theorem loadCounts_succ (n : Nat) (file : List UInt8) (part : CommonNgramCachePart) :
    loadCounts (n + 1) file part = (readBytes 4 file).bind fun token =>
      (readBytes 4 token.2).bind fun count =>
        if decodeInt count.1 ≤ 0 then none
        else loadCounts n count.2 (emplace part (decodeInt token.1) (decodeInt count.1)) := rfl

/-- The loader reads back the counts of a part. -/
theorem loadCounts_append (entries : List (Token × Int)) (rest : List UInt8)
    (htokens : ∀ e ∈ entries, InInt32 e.1) (hcounts : ∀ e ∈ entries, 0 < e.2 ∧ InInt32 e.2)
    (part : CommonNgramCachePart) :
    loadCounts entries.length ((entries.map countBytes).flatten ++ rest) part
      = some (emplaceAll part entries, rest) := by
  induction entries generalizing part with
  | nil => rfl
  | cons e entries ih =>
    obtain ⟨hpos, hint⟩ := hcounts e List.mem_cons_self
    have htoken : InInt32 e.1 := htokens e List.mem_cons_self
    rw [List.length_cons, List.map_cons, List.flatten_cons, countBytes, List.append_assoc,
      List.append_assoc, loadCounts_succ, readBytes_append (length_encodeInt 4 e.1),
      Option.bind_some, readBytes_append (length_encodeInt 4 e.2), Option.bind_some,
      decodeInt_encodeInt_four htoken, decodeInt_encodeInt_four hint, if_neg (by omega),
      emplaceAll_cons]
    exact ih (fun e he => htokens e (List.mem_cons_of_mem _ he))
      (fun e he => hcounts e (List.mem_cons_of_mem _ he)) _

theorem ngramOfBytes_ngramBytes {ngram : CommonNgram} (h : ∀ i, InInt32 (ngram i)) :
    ngramOfBytes (ngramBytes ngram) = ngram := by
  funext i
  have hi : i.val < (List.finRange llamaNgramMax).length := by
    rw [List.length_finRange]
    exact i.isLt
  have hchunk : Rows.chunk (ngramBytes ngram) 4 i.val
      = encodeInt 4 (ngram ((List.finRange llamaNgramMax)[i.val])) :=
    Rows.chunk_flatMap (fun i _ => length_encodeInt 4 (ngram i)) hi
  rw [List.getElem_finRange] at hchunk
  show decodeInt (((ngramBytes ngram).drop (4 * i.val)).take 4) = ngram i
  rw [Nat.mul_comm]
  show decodeInt (Rows.chunk (ngramBytes ngram) 4 i.val) = ngram i
  rw [hchunk]
  exact decodeInt_encodeInt_four (h i)

theorem length_ngramBytes (ngram : CommonNgram) :
    (ngramBytes ngram).length = 4 * llamaNgramMax := by
  rw [ngramBytes, List.length_flatMap]
  simp only [length_encodeInt]
  rfl

/-! ### The n-grams of a cache -/

/-- What is written for an n-gram and its tokens. -/
def partBytes (e : CommonNgram × CommonNgramCachePart) : List UInt8 :=
  ngramBytes e.1 ++ encodeInt 4 (pairs e.2).length ++ ((pairs e.2).map countBytes).flatten

/-- A part that can be stored is written. -/
theorem savePart_storable {ngram : CommonNgram} {part : CommonNgramCachePart}
    (h : StorablePart part) : savePart (ngram, part) = some (partBytes (ngram, part)) := by
  have hlength : 0 < (pairs part).length := List.length_pos_iff.mpr h.filled
  have hsize : toInt (pairs part).length = (pairs part).length :=
    Int.bmod_eq_of_le (by omega) (by have := h.size; omega)
  have hcounts : (pairs part).mapM saveCount = some ((pairs part).map countBytes) := by
    apply Attempt.mapM_some
    intro e he
    rw [saveCount, if_pos (h.counts e he).1]
    rfl
  rw [savePart]
  simp only [hsize, hcounts, Option.bind_eq_bind, Option.bind_some]
  rw [if_neg]
  · rfl
  · rw [List.isEmpty_iff]
    intro hor
    rcases hor with hnil | hle
    · exact h.filled hnil
    · omega

/-- The part as it is filled from the file. -/
def reloaded (part : CommonNgramCachePart) : CommonNgramCachePart := emplaceAll ∅ (pairs part)

/-- A round that reads a whole n-gram. -/
theorem loadParts_succ {rounds : Nat} {file ngram rest : List UInt8} {cache : CommonNgramCache}
    (h : readBytes (4 * llamaNgramMax) file = some (ngram, rest)) :
    loadParts (rounds + 1) file cache = (readBytes 4 rest).bind fun ntokens =>
      if decodeInt ntokens.1 ≤ 0 then none
      else (loadCounts (decodeInt ntokens.1).toNat ntokens.2 ∅).bind fun part =>
        loadParts rounds part.2 (emplace cache (ngramOfBytes ngram) part.1) := by
  rw [loadParts, h]
  rfl

/-- The loader reads back the parts that were written, in their order. -/
theorem loadParts_append (parts : List (CommonNgram × CommonNgramCachePart))
    (hngrams : ∀ e ∈ parts, ∀ i, InInt32 (e.1 i)) (hparts : ∀ e ∈ parts, StorablePart e.2)
    (rounds : Nat) (hrounds : parts.length < rounds) (cache : CommonNgramCache) :
    loadParts rounds (parts.map partBytes).flatten cache
      = some (emplaceAll cache (parts.map fun e => (e.1, reloaded e.2))) := by
  induction parts generalizing rounds cache with
  | nil =>
    obtain ⟨rounds, rfl⟩ : ∃ r, rounds = r + 1 := ⟨rounds - 1, by omega⟩
    rfl
  | cons e parts ih =>
    obtain ⟨ngram, part⟩ := e
    obtain ⟨rounds, rfl⟩ : ∃ r, rounds = r + 1 := ⟨rounds - 1, by omega⟩
    rw [List.length_cons] at hrounds
    have hngram := hngrams (ngram, part) List.mem_cons_self
    have hpart : StorablePart part := hparts (ngram, part) List.mem_cons_self
    have hfilled : 0 < (pairs part).length := List.length_pos_iff.mpr hpart.filled
    have hsize : InInt32 (pairs part).length := ⟨by omega, by have := hpart.size; omega⟩
    rw [List.map_cons, List.flatten_cons, partBytes, List.append_assoc, List.append_assoc,
      loadParts_succ (readBytes_append (length_ngramBytes ngram) _),
      readBytes_append (length_encodeInt 4 _), Option.bind_some, decodeInt_encodeInt_four hsize,
      if_neg (by omega), Int.toNat_natCast,
      loadCounts_append (pairs part) _ hpart.tokens hpart.counts, Option.bind_some,
      ngramOfBytes_ngramBytes hngram, List.map_cons, emplaceAll_cons]
    exact ih (fun e he => hngrams e (List.mem_cons_of_mem _ he))
      (fun e he => hparts e (List.mem_cons_of_mem _ he)) rounds (by omega) _

theorem length_le_flatten (parts : List (CommonNgram × CommonNgramCachePart)) :
    parts.length ≤ (parts.map partBytes).flatten.length := by
  induction parts with
  | nil => exact Nat.le_refl 0
  | cons e parts ih =>
    have hngram : (ngramBytes e.1).length = 16 := length_ngramBytes e.1
    rw [List.map_cons, List.flatten_cons, List.length_append, partBytes, List.length_append,
      List.length_append, hngram, List.length_cons]
    omega

/-- What was saved is loaded, up to the order in which the maps are walked. -/
theorem load_save {cache : CommonNgramCache} (h : Storable cache) :
    ∃ file loaded, commonNgramCacheSave cache = some file ∧
      commonNgramCacheLoad file = some loaded ∧ SameCounts loaded cache := by
  have hsave : (pairs cache).mapM savePart = some ((pairs cache).map partBytes) :=
    Attempt.mapM_some fun e he => savePart_storable (h.parts e he)
  have hrounds := length_le_flatten (pairs cache)
  have hload := loadParts_append (pairs cache) h.ngrams h.parts _ (Nat.lt_succ_of_le hrounds) ∅
  refine ⟨_, _, ?_, hload, ?_⟩
  · rw [commonNgramCacheSave, hsave]
    rfl
  · intro ngram
    rw [lookup_emplaceAll, lookup_map, lookup_pairs, AList.lookup_empty, Option.none_or,
      Option.map_map]
    apply congrArg (Option.map · (cache.lookup ngram))
    funext part token
    exact refill part token

/-! ### The cache as a whole -/

/-- A history that is fed in any chunks is counted exactly where the number of places fits an
`int32_t`, and a merge adds two counts exactly where their sum fits one. Nothing else goes wrong:
the assertions of a merge and a save hold of a cache that was fed a history which is not too long,
and a file that was saved gives the cache back. -/
theorem ngramCache_spec_iff (ngramMin ngramMax : Nat) (chunks : List (List Token))
    (target add cache : CommonNgramCache) :
    (llamaTokenNull ∉ chunks.flatten → ngramMax ≤ llamaNgramMax →
        ∀ (gram : List Token) (token : Token), llamaTokenNull ∉ gram →
          ngramMin ≤ gram.length → gram.length ≤ ngramMax →
            (count (fedCache ngramMin ngramMax chunks) (commonNgram gram gram.length) token
                = followedBy chunks.flatten gram token ↔
              followedBy chunks.flatten gram token < 2 ^ 31)) ∧
      ((ngramMax + 1 - ngramMin) * chunks.flatten.length < 2 ^ 31 →
        Counted (fedCache ngramMin ngramMax chunks)) ∧
      (Ranged target → Ranged add → Counted add →
        ∃ merged, commonNgramCacheMerge target add = some merged ∧ ∀ ngram token,
          (count merged ngram token = count target ngram token + count add ngram token ↔
            count target ngram token + count add ngram token < 2 ^ 31)) ∧
      (Storable cache →
        ∃ file loaded, commonNgramCacheSave cache = some file ∧
          commonNgramCacheLoad file = some loaded ∧ SameCounts loaded cache) := by
  refine ⟨?_, Counted.fed, ?_, load_save⟩
  · intro hnull hmax gram token hgram hlo hhi
    rw [count_fed ngramMin ngramMax chunks gram token hnull hgram hmax hlo hhi,
      toInt_eq_iff (by omega)]
    omega
  · intro htarget hadd hcounted
    obtain ⟨merged, hmerged, hsum⟩ := count_merge htarget hadd hcounted
    refine ⟨merged, hmerged, fun ngram token => ?_⟩
    have hlo := (htarget.count ngram token).1
    have hpos := hcounted.count_nonneg ngram token
    rw [hsum, toInt_eq_iff (by omega)]

/-- A cache of one n-gram with one token. -/
def oneToken (count : Int) : CommonNgramCache := emplace ∅ (commonNgram [1] 1) (emplace ∅ 2 count)

theorem storable_oneToken {c : Int} (hc : 0 < c ∧ InInt32 c) : Storable (oneToken c) where
  ngrams e he := by
    have heq : e = (commonNgram [1] 1, emplace ∅ 2 c) := List.mem_singleton.mp he
    rw [heq]
    exact (by decide : ∀ i, InInt32 (commonNgram [1] 1 i))
  parts e he := by
    have heq : e = (commonNgram [1] 1, emplace ∅ 2 c) := List.mem_singleton.mp he
    have hentry : ∀ e' ∈ pairs (emplace (∅ : CommonNgramCachePart) 2 c), e' = (2, c) :=
      fun e' he' => List.mem_singleton.mp he'
    rw [heq]
    refine ⟨List.cons_ne_nil _ _, (by decide : (1 : Nat) < 2 ^ 31), fun e' he' => ?_,
      fun e' he' => ?_⟩
    · rw [hentry e' he']
      exact (by decide : InInt32 2)
    · rw [hentry e' he']
      exact hc

theorem ranged_oneToken {c : Int} (hc : InInt32 c) : Ranged (oneToken c) := by
  rw [oneToken, emplace_of_none (AList.lookup_empty _), emplace_of_none (AList.lookup_empty _)]
  exact ranged_empty.insert (@ranged_part_insert ∅ (fun t c hc => nomatch hc) 2 c hc)

/-- Two chunks of a history, a merge with the cache of another one, and a file. -/
theorem ngramCache_spec_oneToken :
    (count (fedCache 1 4 [[1, 2, 1], [2]]) (commonNgram [1] 1) 2
        = followedBy [1, 2, 1, 2] [1] 2 ↔ followedBy [1, 2, 1, 2] [1] 2 < 2 ^ 31) ∧
      (∃ merged, commonNgramCacheMerge (oneToken 1) (fedCache 1 4 [[1, 2]]) = some merged ∧
        ∀ ngram token, (count merged ngram token
          = count (oneToken 1) ngram token + count (fedCache 1 4 [[1, 2]]) ngram token ↔
            count (oneToken 1) ngram token + count (fedCache 1 4 [[1, 2]]) ngram token
              < 2 ^ 31)) ∧
      ∃ file loaded, commonNgramCacheSave (oneToken 1) = some file ∧
        commonNgramCacheLoad file = some loaded ∧ SameCounts loaded (oneToken 1) :=
  have hspec := ngramCache_spec_iff 1 4 [[1, 2, 1], [2]] (oneToken 1) (fedCache 1 4 [[1, 2]])
    (oneToken 1)
  ⟨hspec.1 (by decide) (by decide) [1] 2 (by decide) (by decide) (by decide),
    hspec.2.2.1 (ranged_oneToken (by decide)) (ranged_fed 1 4 [[1, 2]]) (Counted.fed (by decide)),
    hspec.2.2.2 (storable_oneToken (by decide))⟩

/-- Both counts can be saved and loaded, and the sum of the greatest one and one is negative. -/
theorem commonNgramCacheMerge_overflows :
    Storable (oneToken 2147483647) ∧ Storable (oneToken 1) ∧
      (commonNgramCacheMerge (oneToken 2147483647) (oneToken 1)).map
        (fun merged => count merged (commonNgram [1] 1) 2) = some (-2147483648) ∧
      count (oneToken 2147483647) (commonNgram [1] 1) 2
        + count (oneToken 1) (commonNgram [1] 1) 2 = 2147483648 :=
  ⟨storable_oneToken (by decide), storable_oneToken (by decide), by decide, by decide⟩

end PxqLlama.Spec
