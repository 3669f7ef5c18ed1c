import PxqLlama.Proofs.Server.TextPrefix
import PxqLlama.Proofs.Server.TokenMedia

/-!
# `Proofs.Server.MediaPrefix`: the common prefix of two token lists

The content of a token list is the text of its tokens with its chunks in between. The loop of
`get_common_prefix` goes from chunk to chunk: what both lists hold in front of the text that it is
at has the same content (`Matches`). It ends with a comparison of that last text, so the prefixes
that it returns have the same content, and they are the longest ones of the tokens that it has
collected (`LongestMatch`, `getCommonPrefix_longestMatch`).

It collects one token of each list at a time and stops when one list ends, so of the other list it
has then seen as many tokens of this text, and no more (`FinalText`).
-/

namespace PxqLlama.Server

namespace ServerTokens

/-! ### The content of a list -/

/-- A character of the text, or a chunk. -/
inductive Item where
  | byte (c : UInt8)
  | media (id : Option String) (nTokens : Nat)
deriving DecidableEq

/-- What the place `k` of a list brings: the later places of a chunk bring nothing. -/
def item (txt : TokenText) (s : ServerTokens) (k : Nat) : List Item :=
  match s.tokens[k]? with
  | none => []
  | some t =>
    if t = llamaTokenNull then
      match s.findChunk k with
      | some chunk => [.media chunk.id? chunk.nTokens]
      | none => []
    else (txt.piece t).map .byte

/-- The content of the places from `lo` up to `hi`. -/
def content (txt : TokenText) (s : ServerTokens) (lo hi : Nat) : List Item :=
  (List.range' lo (hi - lo)).flatMap (item txt s)

/-- The comparison looks at an item. -/
def Item.compared (ignore : List UInt8) : Item → Bool
  | .byte c => c ∉ ignore
  | .media .. => true

/-- The same content, up to the characters that are passed over. -/
def Same (exact : Bool) (x y : List Item) : Prop :=
  x.filter (Item.compared (ignored exact)) = y.filter (Item.compared (ignored exact))
deriving Decidable

/-- The tokens from `lo` up to `hi`. -/
def segment (s : ServerTokens) (lo hi : Nat) : List Int := (s.tokens.drop lo).take (hi - lo)

/-- The places from `lo` up to `hi` hold text. -/
structure TextRun (s : ServerTokens) (lo hi : Nat) : Prop where
  le : lo ≤ hi
  inside : hi ≤ s.size
  text : ∀ k, lo ≤ k → k < hi → s.tokens[k]? ≠ some llamaTokenNull

theorem content_self (txt : TokenText) (s : ServerTokens) (n : Nat) : content txt s n n = [] := by
  rw [content, Nat.sub_self]
  rfl

theorem content_append (txt : TokenText) (s : ServerTokens) {lo mid hi : Nat} (h : lo ≤ mid)
    (h' : mid ≤ hi) : content txt s lo hi = content txt s lo mid ++ content txt s mid hi := by
  have hrange : List.range' lo (hi - lo) =
      List.range' lo (mid - lo) ++ List.range' mid (hi - mid) := by
    rw [show hi - lo = (mid - lo) + (hi - mid) by omega, ← List.range'_append_1,
      show lo + (mid - lo) = mid by omega]
  rw [content, hrange, List.flatMap_append]
  rfl

variable {n i : Nat} {s : ServerTokens} {t : Int} {exact : Bool}

theorem content_succ (txt : TokenText) (s : ServerTokens) {lo : Nat} (h : lo ≤ n) :
    content txt s lo (n + 1) = content txt s lo n ++ item txt s n := by
  rw [content_append txt s h (show n ≤ n + 1 from Nat.le_succ n)]
  congr 1
  rw [content, Nat.add_sub_cancel_left, List.range'_one, List.flatMap_singleton]

theorem item_text (txt : TokenText) {k : Nat} (hk : s.tokens[k]? = some t)
    (ht : t ≠ llamaTokenNull) : item txt s k = (txt.piece t).map .byte := by
  rw [item, hk]
  exact if_neg ht

theorem segment_length {lo hi : Nat} (h : hi ≤ s.size) : (s.segment lo hi).length = hi - lo := by
  rw [segment, List.length_take, List.length_drop]
  show min (hi - lo) (s.size - lo) = hi - lo
  omega

theorem segment_succ {lo : Nat} (h : lo ≤ n) (hn : s.tokens[n]? = some t) :
    s.segment lo (n + 1) = s.segment lo n ++ [t] := by
  have hget : (s.tokens.drop lo)[n - lo]? = some t := by
    rw [List.getElem?_drop, show lo + (n - lo) = n by omega, hn]
  rw [segment, segment, show n + 1 - lo = n - lo + 1 by omega, List.take_add_one, hget]
  rfl

/-- The content of text. -/
theorem content_text (txt : TokenText) {lo hi : Nat} (h : s.TextRun lo hi) (hlo : lo ≤ n)
    (hn : n ≤ hi) : content txt s lo n = (textOf txt (s.segment lo n)).map .byte := by
  induction n, hlo using Nat.le_induction with
  | base =>
    rw [content_self, segment, Nat.sub_self]
    rfl
  | succ n hlo ih =>
    have hlt : n < s.tokens.length := Nat.lt_of_lt_of_le hn h.inside
    have hget : s.tokens[n]? = some s.tokens[n] := List.getElem?_eq_getElem hlt
    have htext : s.tokens[n] ≠ llamaTokenNull := by
      intro heq
      apply h.text n hlo hn
      rw [hget, heq]
    rw [content_succ txt s hlo, ih (Nat.le_of_succ_le hn), segment_succ hlo hget,
      item_text txt hget htext, textOf, textOf, List.flatMap_append, List.map_append]
    show _ = _ ++ List.map Item.byte (List.flatMap txt.piece [s.tokens[n]])
    rw [List.flatMap_singleton]

theorem filter_compared_map (ignore : List UInt8) (x : Bytes) :
    (x.map Item.byte).filter (Item.compared ignore) = (strip ignore x).map .byte := by
  rw [List.filter_map]
  rfl

/-- Text is the same content when it is the same text. -/
theorem same_text {x y : Bytes} (h : strip (ignored exact) x = strip (ignored exact) y) :
    Same exact (x.map .byte) (y.map .byte) := by
  rw [Same, filter_compared_map, filter_compared_map, h]

theorem Same.append {exact : Bool} {x y x' y' : List Item} (h : Same exact x y)
    (h' : Same exact x' y') : Same exact (x ++ x') (y ++ y') := by
  rw [Same, List.filter_append, List.filter_append, h, h']

/-! ### Chunks -/

theorem TextRun.nil (h : n ≤ s.size) : s.TextRun n n where
  le := Nat.le_refl n
  inside := h
  text := fun k hle hlt => by omega

theorem TextRun.succ {lo hi : Nat} (h : s.TextRun lo hi) (hget : s.tokens[hi]? = some t)
    (ht : t ≠ llamaTokenNull) : s.TextRun lo (hi + 1) where
  le := Nat.le_succ_of_le h.le
  inside := (List.getElem?_eq_some_iff.mp hget).1
  text := by
    intro k hle hlt
    rcases Nat.eq_or_lt_of_le (Nat.le_of_lt_succ hlt) with heq | hlt
    · rw [heq, hget]
      exact fun hnull => ht (Option.some.inj hnull)
    · exact h.text k hle hlt

/-- A chunk boundary that holds a null token is the first place of a chunk. -/
theorem exists_chunk (hs : s.WellFormed) (hcut : s.ChunkBoundary i)
    (hnull : s.tokens[i]? = some llamaTokenNull) :
    ∃ chunk, s.findChunk i = some chunk ∧ (i, chunk) ∈ s.mapIdxToMedia.entries ∧
      0 < chunk.nTokens := by
  obtain ⟨p, hp, hle, hlt⟩ := (hs.nulls i).mp hnull
  have hkey : p.1 = i := by
    rcases Nat.eq_or_lt_of_le hle with heq | hbefore
    · exact heq
    · have hend := hcut p hp hbefore
      omega
  subst hkey
  exact ⟨p.2, OrderedMap.find_eq_some.mpr hp, hp, by omega⟩

theorem ChunkBoundary.text (hs : s.WellFormed) (hget : s.tokens[i]? = some t)
    (ht : t ≠ llamaTokenNull) : s.ChunkBoundary (i + 1) := by
  intro p hp hlt
  by_contra hend
  have hnull := (hs.nulls i).mpr ⟨p, hp, by omega, by omega⟩
  rw [hget] at hnull
  exact ht (Option.some.inj hnull)

theorem ChunkBoundary.chunk (hs : s.WellFormed) (hcut : s.ChunkBoundary i) {chunk : InputChunk}
    (hmem : (i, chunk) ∈ s.mapIdxToMedia.entries) : s.ChunkBoundary (i + chunk.nTokens) := by
  intro p hp hlt
  rcases Nat.lt_trichotomy p.1 i with hbefore | heq | hbehind
  · have hend := hcut p hp hbefore
    omega
  · have hsame : p.2 = chunk := OrderedMap.unique _ (by rw [← heq]; exact hp) hmem
    rw [hsame]
    omega
  · have hdis := hs.disjoint _ hmem p hp hbehind
    simp only at hdis
    omega

/-- All places of text are chunk boundaries, when its first one is. -/
theorem TextRun.chunkBoundary (hs : s.WellFormed) {lo hi : Nat} (h : s.TextRun lo hi)
    (hcut : s.ChunkBoundary lo) (hlo : lo ≤ n) (hn : n ≤ hi) : s.ChunkBoundary n := by
  rcases Nat.eq_or_lt_of_le hlo with heq | hlt
  · exact heq ▸ hcut
  · intro p hp hpn
    by_contra hend
    exact h.text (n - 1) (by omega) (by omega)
      ((hs.nulls _).mpr ⟨p, hp, by omega, by omega⟩)

/-- The content of a chunk. -/
theorem content_chunk (txt : TokenText) (hs : s.WellFormed) {chunk : InputChunk}
    (hmem : (i, chunk) ∈ s.mapIdxToMedia.entries) (hpos : 0 < chunk.nTokens) :
    content txt s i (i + chunk.nTokens) = [.media chunk.id? chunk.nTokens] := by
  have hitem : ∀ x, x < chunk.nTokens →
      item txt s (i + x) = if x = 0 then [.media chunk.id? chunk.nTokens] else [] := by
    intro x hx
    have hnull : s.tokens[i + x]? = some llamaTokenNull :=
      (hs.nulls _).mpr ⟨_, hmem, Nat.le_add_right i x, Nat.add_lt_add_left hx i⟩
    rw [item, hnull]
    show (if llamaTokenNull = llamaTokenNull then _ else _) = _
    rw [if_pos rfl]
    by_cases hzero : x = 0
    · subst hzero
      rw [if_pos rfl, Nat.add_zero, findChunk, OrderedMap.find_eq_some.mpr hmem]
    · rw [if_neg hzero]
      cases hfind : s.findChunk (i + x) with
      | none => rfl
      | some other =>
        -- Another chunk cannot begin inside this one.
        have hdis := hs.disjoint _ hmem _ (OrderedMap.find_eq_some.mp hfind) (by simp only; omega)
        simp only at hdis
        omega
  have hrest : ∀ n, 0 < n → n ≤ chunk.nTokens →
      content txt s i (i + n) = [.media chunk.id? chunk.nTokens] := by
    intro n hn
    induction n, hn using Nat.le_induction with
    | base =>
      intro hle
      have hfirst := hitem 0 hpos
      rw [Nat.add_zero, if_pos rfl] at hfirst
      show content txt s i (i + 1) = _
      rw [content_succ txt s (Nat.le_refl i), content_self, hfirst]
      rfl
    | succ n hn ih =>
      intro hle
      rw [← Nat.add_assoc, content_succ txt s (Nat.le_add_right i n), ih (Nat.le_of_succ_le hle),
        hitem n hle, if_neg (by omega)]
      rfl
  exact hrest _ hpos (Nat.le_refl _)

/-! ### Prefixes that match -/

/-- Two prefixes that end at chunk boundaries and have the same content. -/
structure Matches (txt : TokenText) (exact : Bool) (a b : ServerTokens) (n m : Nat) : Prop where
  left : n ≤ a.size
  right : m ≤ b.size
  leftCut : a.ChunkBoundary n
  rightCut : b.ChunkBoundary m
  content : Same exact (content txt a 0 n) (content txt b 0 m)

/-- A chunk with places ends here. -/
def ChunkEnd (s : ServerTokens) (n : Nat) : Prop :=
  ∃ p ∈ s.mapIdxToMedia.entries, 0 < p.2.nTokens ∧ n = p.1 + p.2.nTokens

/-- The text ends here, with the list or at a chunk. -/
def TextEnd (s : ServerTokens) (n : Nat) : Prop :=
  n = s.size ∨ s.tokens[n]? = some llamaTokenNull

/-- The last text that is compared, from `i₀` up to `i` and from `j₀` up to `j`. It begins where the
tokens are no longer the same (`e`), or behind a chunk. It is the whole text of both lists, except
that of one list only as many tokens are seen as the other one has left when it ends. -/
structure FinalText (a b : ServerTokens) (e i₀ j₀ i j : Nat) : Prop where
  start : (i₀ = e ∧ j₀ = e) ∨ (a.ChunkEnd i₀ ∧ b.ChunkEnd j₀)
  left : a.TextRun i₀ i
  right : b.TextRun j₀ j
  leftEnd : a.TextEnd i ∨ (j = b.size ∧ i - i₀ = j - j₀)
  rightEnd : b.TextEnd j ∨ (i = a.size ∧ j - j₀ = i - i₀)

/-- No pair of prefixes of the last text with the same text reaches beyond `n` and `m`, when both
hold a token of it. The comparison that passes over blanks leaves out blanks behind the end of the
other text. -/
def Longest (exact : Bool) (txt : TokenText) (a b : ServerTokens) (i₀ j₀ i j n m : Nat) : Prop :=
  ∀ n' m', i₀ < n' → n' ≤ i → j₀ < m' → m' ≤ j →
    strip (ignored exact) (textOf txt (a.segment i₀ n')) =
      strip (ignored exact) (textOf txt (b.segment j₀ m')) →
    (n' ≤ n ∧ m' ≤ m) ∨
      (exact = false ∧
        (BlankEnd (textOf txt (a.segment i₀ i)) (textOf txt (a.segment i₀ n'))
            (textOf txt (b.segment j₀ m')) ∨
          BlankEnd (textOf txt (b.segment j₀ j)) (textOf txt (b.segment j₀ m'))
            (textOf txt (a.segment i₀ n'))))

/-- What `get_common_prefix` returns, where the tokens are the same up to `e`. -/
structure LongestMatch (exact : Bool) (txt : TokenText) (a b : ServerTokens) (e n m : Nat) :
    Prop where
  left : e ≤ n
  right : e ≤ m
  same : Matches txt exact a b n m
  longest : ∃ i₀ j₀ i j, FinalText a b e i₀ j₀ i j ∧ i₀ ≤ n ∧ n ≤ i ∧ j₀ ≤ m ∧ m ≤ j ∧
    Longest exact txt a b i₀ j₀ i j n m

theorem segment_self (s : ServerTokens) (n : Nat) : s.segment n n = [] := by
  rw [segment, Nat.sub_self]
  rfl

theorem segment_take {lo hi : Nat} (h : n ≤ hi) :
    (s.segment lo hi).take (n - lo) = s.segment lo n := by
  rw [segment, segment, List.take_take, Nat.min_eq_left (by omega)]

/-- The loop of `get_common_prefix` at the places `i` and `j`, in its round `t` of the text that
begins at `i₀` and `j₀`: one that waits at a chunk has fewer tokens than rounds. -/
structure LoopAt (txt : TokenText) (exact : Bool) (a b : ServerTokens) (e i₀ j₀ i j t : Nat) :
    Prop where
  start : Matches txt exact a b i₀ j₀
  begins : (i₀ = e ∧ j₀ = e) ∨ (a.ChunkEnd i₀ ∧ b.ChunkEnd j₀)
  leftStart : e ≤ i₀
  rightStart : e ≤ j₀
  left : a.TextRun i₀ i
  right : b.TextRun j₀ j
  leftRound : i - i₀ = t ∨ a.tokens[i]? = some llamaTokenNull
  rightRound : j - j₀ = t ∨ b.tokens[j]? = some llamaTokenNull

/-- Where one list has ended, the other one has as many tokens, or it waits at a chunk. -/
theorem LoopAt.finalText {txt : TokenText} {a b : ServerTokens} {e i₀ j₀ j t : Nat}
    (h : LoopAt txt exact a b e i₀ j₀ i j t) (hend : a.size ≤ i ∨ b.size ≤ j) :
    FinalText a b e i₀ j₀ i j := by
  have hinA := h.left.inside
  have hinB := h.right.inside
  rcases hend with hend | hend
  · have hi : i = a.size := by omega
    have hround : i - i₀ = t := by
      refine h.leftRound.resolve_right fun hnull => ?_
      obtain ⟨hlt, -⟩ := List.getElem?_eq_some_iff.mp hnull
      exact absurd hlt (Nat.not_lt.mpr hend)
    refine ⟨h.begins, h.left, h.right, Or.inl (Or.inl hi), ?_⟩
    rcases h.rightRound with hj | hnull
    · exact Or.inr ⟨hi, by omega⟩
    · exact Or.inl (Or.inr hnull)
  · have hj : j = b.size := by omega
    have hround : j - j₀ = t := by
      refine h.rightRound.resolve_right fun hnull => ?_
      obtain ⟨hlt, -⟩ := List.getElem?_eq_some_iff.mp hnull
      exact absurd hlt (Nat.not_lt.mpr hend)
    refine ⟨h.begins, h.left, h.right, ?_, Or.inl (Or.inl hj)⟩
    rcases h.leftRound with hi | hnull
    · exact Or.inr ⟨hj, by omega⟩
    · exact Or.inl (Or.inr hnull)

/-- Behind a chunk that is the same in both lists the loop begins again. -/
theorem LoopAt.chunk {txt : TokenText} {a b : ServerTokens} (ha : a.WellFormed)
    (hb : b.WellFormed) {e i₀ j₀ j t : Nat} (h : LoopAt txt exact a b e i₀ j₀ i j t)
    (htext : strip (ignored exact) (textOf txt (a.segment i₀ i)) =
      strip (ignored exact) (textOf txt (b.segment j₀ j)))
    {aChunk bChunk : InputChunk} (hac : (i, aChunk) ∈ a.mapIdxToMedia.entries)
    (hbc : (j, bChunk) ∈ b.mapIdxToMedia.entries) (hpos : 0 < aChunk.nTokens)
    (hid : aChunk.id? = bChunk.id?) (hn : aChunk.nTokens = bChunk.nTokens) :
    LoopAt txt exact a b e (i + aChunk.nTokens) (j + aChunk.nTokens) (i + aChunk.nTokens)
      (j + aChunk.nTokens) 0 := by
  have hcutA := h.left.chunkBoundary ha h.start.leftCut h.left.le (Nat.le_refl i)
  have hcutB := h.right.chunkBoundary hb h.start.rightCut h.right.le (Nat.le_refl j)
  have hinA : i + aChunk.nTokens ≤ a.size := ha.inside _ hac
  have hinB : j + bChunk.nTokens ≤ b.size := hb.inside _ hbc
  have hle := h.left.le
  have hle' := h.right.le
  have hsei := h.leftStart
  have hsej := h.rightStart
  refine ⟨⟨hinA, by omega, hcutA.chunk ha hac, hn ▸ hcutB.chunk hb hbc, ?_⟩,
    Or.inr ⟨⟨_, hac, hpos, rfl⟩, ⟨_, hbc, hn ▸ hpos, by rw [hn]⟩⟩, by omega, by omega,
    TextRun.nil hinA, TextRun.nil (by omega), Or.inl (Nat.sub_self _), Or.inl (Nat.sub_self _)⟩
  rw [content_append txt a (Nat.zero_le i) (Nat.le_add_right i aChunk.nTokens),
    content_append txt b (Nat.zero_le j) (Nat.le_add_right j aChunk.nTokens),
    content_append txt a (Nat.zero_le i₀) hle, content_append txt b (Nat.zero_le j₀) hle',
    content_text txt h.left hle (Nat.le_refl i), content_text txt h.right hle' (Nat.le_refl j),
    content_chunk txt ha hac hpos, hn, content_chunk txt hb hbc (hn ▸ hpos), hid]
  exact (h.start.content.append (same_text htext)).append rfl

section Loop

variable (txt : TokenText) (hdetok : ∀ tokens, txt.detokenize tokens = textOf txt tokens)

include hdetok

/-- The comparison of the last text. -/
theorem finalText_match {a b : ServerTokens} (ha : a.WellFormed) (hb : b.WellFormed)
    {e i₀ j₀ j : Nat} (hstart : Matches txt exact a b i₀ j₀) (hei : e ≤ i₀) (hej : e ≤ j₀)
    (hfinal : FinalText a b e i₀ j₀ i j) {r : CommonPrefix}
    (hr : r = findCommonTextTokenPrefix txt (a.segment i₀ i) (b.segment j₀ j) 0 exact) :
    LongestMatch exact txt a b e (i₀ + r.first) (j₀ + r.second) := by
  obtain ⟨hfirst, hsecond, hsame, hlongest⟩ :=
    findCommonTextTokenPrefix_spec txt hdetok (a.segment i₀ i) (b.segment j₀ j) 0 exact
  rw [← hr, List.drop_zero, List.drop_zero] at hsame
  rw [← hr, List.drop_zero, segment_length hfinal.left.inside] at hfirst
  rw [← hr, List.drop_zero, segment_length hfinal.right.inside] at hsecond
  rw [← hr, List.drop_zero, List.drop_zero] at hlongest
  have hle := hfinal.left.le
  have hle' := hfinal.right.le
  have htakeA : ∀ n, i₀ ≤ n → n ≤ i → (a.segment i₀ i).take (n - i₀) = a.segment i₀ n :=
    fun n _ hn => segment_take hn
  have htakeB : ∀ n, j₀ ≤ n → n ≤ j → (b.segment j₀ j).take (n - j₀) = b.segment j₀ n :=
    fun n _ hn => segment_take hn
  have hA := htakeA (i₀ + r.first) (by omega) (by omega)
  have hB := htakeB (j₀ + r.second) (by omega) (by omega)
  rw [Nat.add_sub_cancel_left] at hA hB
  refine ⟨by omega, by omega, ?_, i₀, j₀, i, j, hfinal, by omega, by omega, by omega, by omega, ?_⟩
  · constructor
    · exact Nat.le_trans (by omega) hfinal.left.inside
    · exact Nat.le_trans (by omega) hfinal.right.inside
    · exact hfinal.left.chunkBoundary ha hstart.leftCut (by omega) (by omega)
    · exact hfinal.right.chunkBoundary hb hstart.rightCut (by omega) (by omega)
    · rw [content_append txt a (Nat.zero_le i₀) (show i₀ ≤ i₀ + r.first by omega),
        content_append txt b (Nat.zero_le j₀) (show j₀ ≤ j₀ + r.second by omega),
        content_text txt hfinal.left (by omega) (by omega),
        content_text txt hfinal.right (by omega) (by omega)]
      apply hstart.content.append
      apply same_text
      rw [← hA, ← hB]
      exact hsame
  · intro n' m' hn hni hm hmj htext
    have hlong := hlongest (n' - i₀) (m' - j₀) (by omega)
      (by rw [segment_length hfinal.left.inside]; omega) (by omega)
      (by rw [segment_length hfinal.right.inside]; omega)
    rw [htakeA n' (by omega) hni, htakeB m' (by omega) hmj] at hlong
    rcases hlong htext with ⟨hn', hm'⟩ | hblank
    · exact Or.inl ⟨by omega, by omega⟩
    · exact Or.inr hblank

/-- The loop ends with the comparison of the last text. -/
theorem loop_finish {a b : ServerTokens} (ha : a.WellFormed) (hb : b.WellFormed)
    {e i₀ j₀ j t : Nat} (h : LoopAt txt exact a b e i₀ j₀ i j t)
    (hfinal : FinalText a b e i₀ j₀ i j) :
    ∃ n m, some (commonPrefixAdd
          (findCommonTextTokenPrefix txt (a.segment i₀ i) (b.segment j₀ j) 0 exact)
          { first := i₀, second := j₀ }) = some { first := n, second := m } ∧
      LongestMatch exact txt a b e n m := by
  refine ⟨_, _, ?_, finalText_match txt hdetok ha hb h.start h.leftStart h.rightStart hfinal rfl⟩
  rw [commonPrefixAdd, Nat.add_comm i₀, Nat.add_comm j₀]

/-- The loop from any point: the longest match that ends at chunk boundaries. -/
theorem commonPrefixMedia_longestMatch {a b : ServerTokens} (ha : a.WellFormed)
    (hb : b.WellFormed) {e i₀ j₀ j t : Nat} (fuel : Nat)
    (hfuel : (a.size - i) + (b.size - j) ≤ fuel) (h : LoopAt txt exact a b e i₀ j₀ i j t) :
    ∃ n m, commonPrefixMedia txt a b exact fuel i j (a.segment i₀ i) (b.segment j₀ j)
        { first := i₀, second := j₀ } = some { first := n, second := m } ∧
      LongestMatch exact txt a b e n m := by
  induction fuel generalizing i₀ j₀ i j t with
  | zero =>
    rw [commonPrefixMedia]
    exact loop_finish txt hdetok ha hb h (h.finalText (by omega))
  | succ fuel ih =>
    rw [commonPrefixMedia]
    by_cases hend : a.size ≤ i ∨ b.size ≤ j
    · rw [if_pos hend]
      exact loop_finish txt hdetok ha hb h (h.finalText hend)
    · rw [if_neg hend]
      have hilt : i < a.tokens.length := Nat.lt_of_not_le fun hle => hend (Or.inl hle)
      have hjlt : j < b.tokens.length := Nat.lt_of_not_le fun hle => hend (Or.inr hle)
      have hai : a.tokens[i]? = some (a.tokens.getD i 0) := by
        rw [List.getD_eq_getElem?_getD, List.getElem?_eq_getElem hilt]
        rfl
      have hbj : b.tokens[j]? = some (b.tokens.getD j 0) := by
        rw [List.getD_eq_getElem?_getD, List.getElem?_eq_getElem hjlt]
        rfl
      generalize a.tokens.getD i 0 = ai at hai ⊢
      generalize b.tokens.getD j 0 = bi at hbj ⊢
      have hsizeA : i < a.size := hilt
      have hsizeB : j < b.size := hjlt
      have hle := h.left.le
      have hle' := h.right.le
      by_cases hat : ai = llamaTokenNull
      · by_cases hbt : bi = llamaTokenNull
        · -- Both lists have come to a chunk.
          subst hat
          subst hbt
          have hfinal : FinalText a b e i₀ j₀ i j :=
            ⟨h.begins, h.left, h.right, Or.inl (Or.inr hai), Or.inl (Or.inr hbj)⟩
          obtain ⟨aChunk, hfindA, hac, hpos⟩ := exists_chunk ha
            (h.left.chunkBoundary ha h.start.leftCut hle (Nat.le_refl i)) hai
          obtain ⟨bChunk, hfindB, hbc, -⟩ := exists_chunk hb
            (h.right.chunkBoundary hb h.start.rightCut hle' (Nat.le_refl j)) hbj
          simp only [ne_eq, not_true_eq_false, if_false, and_self, if_true]
          have hstop := loop_finish txt hdetok ha hb h hfinal
          split
          · rename_i hwhole
            rw [hfindA, hfindB]
            show ∃ n m, (if aChunk.id? = bChunk.id? ∧ aChunk.nTokens = bChunk.nTokens then
              if aChunk.nTokens = 0 then none else _ else _) = _ ∧ _
            by_cases hchunk : aChunk.id? = bChunk.id? ∧ aChunk.nTokens = bChunk.nTokens
            · rw [if_pos hchunk, if_neg (Nat.ne_of_gt hpos)]
              obtain ⟨-, -, hsame, -⟩ := findCommonTextTokenPrefix_spec txt hdetok
                (a.segment i₀ i) (b.segment j₀ j) 0 exact
              rw [hwhole.1, hwhole.2, List.drop_zero, List.drop_zero, List.take_length,
                List.take_length] at hsame
              have hnext := h.chunk ha hb hsame hac hbc hpos hchunk.1 hchunk.2
              have hacc : commonPrefixAdd
                  { first := (findCommonTextTokenPrefix txt (a.segment i₀ i) (b.segment j₀ j) 0
                      exact).first + aChunk.nTokens
                    second := (findCommonTextTokenPrefix txt (a.segment i₀ i) (b.segment j₀ j) 0
                      exact).second + aChunk.nTokens }
                  { first := i₀, second := j₀ } =
                  { first := i + aChunk.nTokens, second := j + aChunk.nTokens } := by
                rw [hwhole.1, hwhole.2, segment_length h.left.inside,
                  segment_length h.right.inside, commonPrefixAdd]
                show ({ first := i - i₀ + aChunk.nTokens + i₀
                        second := j - j₀ + aChunk.nTokens + j₀ } : CommonPrefix) = _
                rw [show i - i₀ + aChunk.nTokens + i₀ = i + aChunk.nTokens by omega,
                  show j - j₀ + aChunk.nTokens + j₀ = j + aChunk.nTokens by omega]
              have hagain := ih (by omega) hnext
              rw [segment_self, segment_self] at hagain
              rw [hacc]
              exact hagain
            · rw [if_neg hchunk]
              exact hstop
          · exact hstop
        · -- The first list waits at its chunk.
          simp only [hat, hbt, ne_eq, not_true_eq_false, not_false_eq_true, if_false, if_true,
            and_false]
          rw [← segment_succ hle' hbj]
          have hround : j - j₀ = t := h.rightRound.resolve_right fun hnull => by
            rw [hbj] at hnull
            exact hbt (Option.some.inj hnull)
          exact ih (by omega) { h with
            right := h.right.succ hbj hbt
            leftRound := Or.inr (hat ▸ hai)
            rightRound := Or.inl (show j + 1 - j₀ = t + 1 by omega) }
      · have hround : i - i₀ = t := h.leftRound.resolve_right fun hnull => by
          rw [hai] at hnull
          exact hat (Option.some.inj hnull)
        by_cases hbt : bi = llamaTokenNull
        · -- The second list waits at its chunk.
          simp only [hat, hbt, ne_eq, not_true_eq_false, not_false_eq_true, if_false, if_true,
            false_and]
          rw [← segment_succ hle hai]
          exact ih (by omega) { h with
            left := h.left.succ hai hat
            leftRound := Or.inl (show i + 1 - i₀ = t + 1 by omega)
            rightRound := Or.inr (hbt ▸ hbj) }
        · -- Both lists go on with a token.
          simp only [hat, hbt, ne_eq, not_false_eq_true, if_false, if_true, false_and]
          rw [← segment_succ hle hai, ← segment_succ hle' hbj]
          have hround' : j - j₀ = t := h.rightRound.resolve_right fun hnull => by
            rw [hbj] at hnull
            exact hbt (Option.some.inj hnull)
          exact ih (by omega) { h with
            left := h.left.succ hai hat
            right := h.right.succ hbj hbt
            leftRound := Or.inl (show i + 1 - i₀ = t + 1 by omega)
            rightRound := Or.inl (show j + 1 - j₀ = t + 1 by omega) }

end Loop

/-! ### The tokens that are the same -/

theorem content_eq_succ (txt : TokenText) {a b : ServerTokens}
    (h : content txt a 0 i = content txt b 0 i) (ha : a.tokens[i]? = some t)
    (hb : b.tokens[i]? = some t) (ht : t ≠ llamaTokenNull) :
    content txt a 0 (i + 1) = content txt b 0 (i + 1) := by
  rw [content_succ txt a (Nat.zero_le i), content_succ txt b (Nat.zero_le i), h,
    item_text txt ha ht, item_text txt hb ht]

/-- The loop of `get_common_prefix_exact` ends at a chunk boundary of both lists, with the same
content in front of it. -/
theorem commonPrefixExactMedia_spec (txt : TokenText) {a b : ServerTokens} (ha : a.WellFormed)
    (hb : b.WellFormed) (fuel i : Nat) (hfuel : min a.size b.size - i ≤ fuel)
    (hle : i ≤ min a.size b.size) (hcutA : a.ChunkBoundary i) (hcutB : b.ChunkBoundary i)
    (hsame : content txt a 0 i = content txt b 0 i) :
    ∃ e, commonPrefixExactMedia a b (min a.size b.size) fuel i = some e ∧
      e ≤ min a.size b.size ∧ a.ChunkBoundary e ∧ b.ChunkBoundary e ∧
      content txt a 0 e = content txt b 0 e := by
  induction fuel generalizing i with
  | zero =>
    have hend : i = min a.size b.size := by omega
    rw [commonPrefixExactMedia, ← hend]
    exact ⟨i, rfl, Nat.le_refl i, hcutA, hcutB, hsame⟩
  | succ fuel ih =>
    rw [commonPrefixExactMedia]
    by_cases hend : min a.size b.size ≤ i
    · have heq : i = min a.size b.size := Nat.le_antisymm hle hend
      rw [if_pos hend, ← heq]
      exact ⟨i, rfl, Nat.le_refl i, hcutA, hcutB, hsame⟩
    · rw [if_neg hend]
      have hilt : i < a.tokens.length ∧ i < b.tokens.length :=
        Nat.lt_min.mp (Nat.lt_of_not_le hend)
      have hai : a.tokens[i]? = some (a.tokens.getD i 0) := by
        rw [List.getD_eq_getElem?_getD, List.getElem?_eq_getElem hilt.1]
        rfl
      have hbi : b.tokens[i]? = some (b.tokens.getD i 0) := by
        rw [List.getD_eq_getElem?_getD, List.getElem?_eq_getElem hilt.2]
        rfl
      generalize a.tokens.getD i 0 = ai at hai ⊢
      generalize b.tokens.getD i 0 = bi at hbi ⊢
      have hhere : ∃ e, some i = some e ∧ e ≤ min a.size b.size ∧ a.ChunkBoundary e ∧
          b.ChunkBoundary e ∧ content txt a 0 e = content txt b 0 e :=
        ⟨i, rfl, hle, hcutA, hcutB, hsame⟩
      by_cases hnull : ai = llamaTokenNull ∧ bi = llamaTokenNull
      · obtain ⟨rfl, rfl⟩ := hnull
        obtain ⟨aChunk, hfindA, hac, hpos⟩ := exists_chunk ha hcutA hai
        obtain ⟨bChunk, hfindB, hbc, -⟩ := exists_chunk hb hcutB hbi
        simp only [and_self, if_true]
        rw [hfindA, hfindB]
        show ∃ e, (if aChunk.id? = bChunk.id? ∧ aChunk.nTokens = bChunk.nTokens then
          if aChunk.nTokens = 0 then none else _ else some i) = _ ∧ _
        by_cases hchunk : aChunk.id? = bChunk.id? ∧ aChunk.nTokens = bChunk.nTokens
        · rw [if_pos hchunk, if_neg (Nat.ne_of_gt hpos)]
          have hinA : i + aChunk.nTokens ≤ a.size := ha.inside _ hac
          have hinB : i + bChunk.nTokens ≤ b.size := hb.inside _ hbc
          apply ih (i + aChunk.nTokens) (by omega) (Nat.le_min.mpr ⟨hinA, hchunk.2 ▸ hinB⟩)
            (hcutA.chunk ha hac) (hchunk.2 ▸ hcutB.chunk hb hbc)
          rw [content_append txt a (Nat.zero_le i) (Nat.le_add_right i _),
            content_append txt b (Nat.zero_le i) (Nat.le_add_right i _), hsame,
            content_chunk txt ha hac hpos, hchunk.2, content_chunk txt hb hbc (hchunk.2 ▸ hpos),
            hchunk.1]
        · rw [if_neg hchunk]
          exact hhere
      · rw [if_neg hnull]
        by_cases heq : ai = bi
        · subst heq
          have htext : ai ≠ llamaTokenNull := fun h => hnull ⟨h, h⟩
          rw [if_pos rfl]
          exact ih (i + 1) (by omega) (by omega) (ChunkBoundary.text ha hai htext)
            (ChunkBoundary.text hb hbi htext) (content_eq_succ txt hsame hai hbi htext)
        · rw [if_neg heq]
          exact hhere

/-- A list without null tokens has chunk boundaries everywhere. -/
theorem chunkBoundary_of_text (hs : s.WellFormed) (htext : llamaTokenNull ∉ s.tokens) (n : Nat) :
    s.ChunkBoundary n := by
  intro p hp hlt
  by_contra hend
  have hnull := (hs.nulls p.1).mpr ⟨p, hp, Nat.le_refl _, by omega⟩
  exact htext (List.mem_of_getElem? hnull)

theorem textRun_of_text (htext : llamaTokenNull ∉ s.tokens) {lo hi : Nat} (hle : lo ≤ hi)
    (hin : hi ≤ s.size) : s.TextRun lo hi where
  le := hle
  inside := hin
  text := fun _ _ _ hnull => htext (List.mem_of_getElem? hnull)

/-- Equal tokens have the same content. -/
theorem content_eq_of_take (txt : TokenText) {a b : ServerTokens} (ha : llamaTokenNull ∉ a.tokens)
    (h : a.tokens.take n = b.tokens.take n) (hn : n ≤ a.tokens.length) :
    content txt a 0 n = content txt b 0 n := by
  have hget : ∀ k, k < n → a.tokens[k]? = b.tokens[k]? := by
    intro k hk
    rw [← List.getElem?_take_of_lt hk, h, List.getElem?_take_of_lt hk]
  induction n with
  | zero => rw [content_self, content_self]
  | succ n ih =>
    have hlast : a.tokens[n]? = some a.tokens[n] := List.getElem?_eq_getElem hn
    have htext : a.tokens[n] ≠ llamaTokenNull := fun heq => ha (heq ▸ List.getElem_mem hn)
    have hless : a.tokens.take n = b.tokens.take n := by
      have htake := congrArg (List.take n) h
      rw [List.take_take, List.take_take, Nat.min_eq_left (Nat.le_succ n)] at htake
      exact htake
    have hprev := ih hless (Nat.le_of_succ_le hn) fun k hk => hget k (Nat.lt_succ_of_lt hk)
    exact content_eq_succ txt hprev hlast ((hget n (Nat.lt_succ_self n)).symm.trans hlast) htext

theorem findCommonTextTokenPrefix_drop (txt : TokenText) (a b : List Int) (start : Nat)
    (exact : Bool) :
    findCommonTextTokenPrefix txt a b start exact =
      findCommonTextTokenPrefix txt (a.drop start) (b.drop start) 0 exact := by
  rw [findCommonTextTokenPrefix, findCommonTextTokenPrefix]
  simp only [List.length_drop, List.drop_zero, Nat.le_zero, Nat.sub_eq_zero_iff_le]

/-! ### The common prefix -/

/-- `get_common_prefix` returns prefixes with the same content, the longest ones of the text that
it compares. -/
theorem getCommonPrefix_longestMatch (txt : TokenText) (a b : ServerTokens) (exact : Bool)
    (hdetok : ∀ tokens, txt.detokenize tokens = textOf txt tokens) (ha : a.WellFormed)
    (hb : b.WellFormed)
    (hmedia : a.hasMtmd = true ∨ (llamaTokenNull ∉ a.tokens ∧ llamaTokenNull ∉ b.tokens)) :
    ∃ e n m, a.getCommonPrefixExact b = some e ∧
      a.getCommonPrefix txt b exact = some { first := n, second := m } ∧
      LongestMatch exact txt a b e n m := by
  have hnone : ∀ s : ServerTokens, s.ChunkBoundary 0 :=
    fun _ _ _ hlt => absurd hlt (Nat.not_lt_zero _)
  by_cases hmtmd : a.hasMtmd = true
  · obtain ⟨e, hexact, hle, hcutA, hcutB, hsame⟩ :=
      commonPrefixExactMedia_spec txt ha hb (min a.size b.size) 0 (Nat.sub_le _ _)
        (Nat.zero_le _) (hnone a) (hnone b) (by rw [content_self, content_self])
    have he : a.getCommonPrefixExact b = some e := by
      rw [getCommonPrefixExact, if_pos hmtmd]
      exact hexact
    have hleA : e ≤ a.size := Nat.le_trans hle (Nat.min_le_left _ _)
    have hleB : e ≤ b.size := Nat.le_trans hle (Nat.min_le_right _ _)
    have hloop : LoopAt txt exact a b e e e e e 0 :=
      ⟨⟨hleA, hleB, hcutA, hcutB, congrArg _ hsame⟩, Or.inl ⟨rfl, rfl⟩, Nat.le_refl e,
        Nat.le_refl e, TextRun.nil hleA, TextRun.nil hleB, Or.inl (Nat.sub_self e),
        Or.inl (Nat.sub_self e)⟩
    obtain ⟨n, m, hrun, hmatch⟩ := commonPrefixMedia_longestMatch txt hdetok ha hb
      (a.size + b.size) (by omega) hloop
    rw [segment_self, segment_self] at hrun
    refine ⟨e, n, m, he, ?_, hmatch⟩
    rw [getCommonPrefix, he]
    show (if a.hasMtmd = true then _ else _) = _
    rw [if_pos hmtmd]
    exact hrun
  · obtain ⟨htextA, htextB⟩ := hmedia.resolve_left hmtmd
    have hlen : ((a.tokens.zip b.tokens).takeWhile fun p => p.1 = p.2).length ≤
        min a.size b.size := by
      rw [size, size, ← List.length_zip]
      exact (List.takeWhile_sublist _).length_le
    have htake := take_zip_takeWhile a.tokens b.tokens
    have he : a.getCommonPrefixExact b =
        some ((a.tokens.zip b.tokens).takeWhile fun p => p.1 = p.2).length := by
      rw [getCommonPrefixExact, if_neg hmtmd]
    generalize ((a.tokens.zip b.tokens).takeWhile fun p => p.1 = p.2).length = e
      at hlen htake he
    have hleA : e ≤ a.size := Nat.le_trans hlen (Nat.min_le_left _ _)
    have hleB : e ≤ b.size := Nat.le_trans hlen (Nat.min_le_right _ _)
    have hstart : Matches txt exact a b e e :=
      ⟨hleA, hleB, chunkBoundary_of_text ha htextA e, chunkBoundary_of_text hb htextB e,
        congrArg _ (content_eq_of_take txt htextA htake hleA)⟩
    have hfinal : FinalText a b e e e a.size b.size :=
      ⟨Or.inl ⟨rfl, rfl⟩, textRun_of_text htextA hleA (Nat.le_refl _),
        textRun_of_text htextB hleB (Nat.le_refl _), Or.inl (Or.inl rfl), Or.inl (Or.inl rfl)⟩
    have hsegment : ∀ s : ServerTokens, s.segment e s.size = s.tokens.drop e := by
      intro s
      rw [segment]
      exact List.take_of_length_le (Nat.le_of_eq List.length_drop)
    refine ⟨e, _, _, he, ?_, finalText_match txt hdetok ha hb hstart (Nat.le_refl e)
      (Nat.le_refl e) hfinal rfl⟩
    rw [hsegment, hsegment, ← findCommonTextTokenPrefix_drop, getCommonPrefix, he]
    show (if a.hasMtmd = true then _ else _) = _
    rw [if_neg hmtmd, commonPrefixAdd, Nat.add_comm e, Nat.add_comm e]

/-! ### Prefixes that are not the longest -/

/-- Two matching prefixes that no more text, on either side, makes longer. -/
def MatchesLongest (txt : TokenText) (exact : Bool) (a b : ServerTokens) (n m : Nat) : Prop :=
  Matches txt exact a b n m ∧ ∀ n' m', a.TextRun n n' → b.TextRun m m' →
    Matches txt exact a b n' m' → n' = n ∧ m' = m

/-- Pieces of a few letters. The token 5 has none. -/
def letters (t : Int) : Bytes :=
  if t = 1 then [97, 98] else if t = 2 then [99] else if t = 3 then [97] else if t = 4 then [98]
  else if t = 6 then [32] else []

def letterText : TokenText where
  piece := letters
  detokenize := fun tokens => tokens.flatMap letters

def textList (hasMtmd : Bool) (tokens : List Int) : ServerTokens :=
  { hasMtmd := hasMtmd, tokens := tokens }

def photo : InputChunk :=
  { type := .image, tokensImage := some { nx := 2, ny := 1, id := "photo" } }

/-- A photo between two texts. -/
def photoList (before after : List Int) : ServerTokens where
  hasMtmd := true
  mapIdxToMedia := OrderedMap.empty.insert before.length photo
  tokens := before ++ [llamaTokenNull, llamaTokenNull] ++ after

theorem photoList_wellFormed {before after : List Int} (hbefore : llamaTokenNull ∉ before)
    (hafter : llamaTokenNull ∉ after) : (photoList before after).WellFormed :=
  ((wellFormed_text true hbefore).append (wellFormed_media true photo)).append
    (wellFormed_text true hafter)

/-- Two tokens and one token with the same text in front of the same photo. -/
theorem getCommonPrefix_longestMatch_photo :
    ∃ e n m, (photoList [1] [2]).getCommonPrefixExact (photoList [3, 4] [2]) = some e ∧
      (photoList [1] [2]).getCommonPrefix letterText (photoList [3, 4] [2]) true =
        some { first := n, second := m } ∧
      LongestMatch true letterText (photoList [1] [2]) (photoList [3, 4] [2]) e n m :=
  getCommonPrefix_longestMatch letterText (photoList [1] [2]) (photoList [3, 4] [2]) true
    (fun _ => rfl) (photoList_wellFormed (by decide) (by decide))
    (photoList_wellFormed (by decide) (by decide)) (Or.inl rfl)

theorem textList_matches {hasMtmd hasMtmd' : Bool} {l l' : List Int} {m : Nat}
    (hl : llamaTokenNull ∉ l) (hl' : llamaTokenNull ∉ l') (hn : n ≤ l.length) (hm : m ≤ l'.length)
    (hsame : Same exact (content letterText (textList hasMtmd l) 0 n)
      (content letterText (textList hasMtmd' l') 0 m)) :
    Matches letterText exact (textList hasMtmd l) (textList hasMtmd' l') n m :=
  ⟨hn, hm, chunkBoundary_of_text (wellFormed_text hasMtmd hl) hl n,
    chunkBoundary_of_text (wellFormed_text hasMtmd' hl') hl' m, hsame⟩

/-- Two well-formed lists whose common prefix is not the longest one, or no common prefix. -/
def NotLongest (exact : Bool) (a b : ServerTokens) : Prop :=
  a.WellFormed ∧ b.WellFormed ∧ ∃ n m, a.getCommonPrefix letterText b exact =
    some { first := n, second := m } ∧ ¬ MatchesLongest letterText exact a b n m

/-- Where a list that may hold media ends, the rest of the other one is not seen. A token without
text is not matched with nothing, and neither is a blank. A list that may hold no media takes the
null tokens of the other one for text. -/
theorem getCommonPrefix_not_longest :
    NotLongest true (textList true [1, 2]) (textList true [3, 4, 2]) ∧
      NotLongest true (textList false [5, 1]) (textList false [2]) ∧
      NotLongest false (textList false [1]) (textList false [1, 6]) ∧
      NotLongest true (textList false [1]) (photoList [] [1]) := by
  have htext : ∀ {hasMtmd : Bool} {l : List Int}, llamaTokenNull ∉ l →
      (textList hasMtmd l).WellFormed := fun hl => wellFormed_text _ hl
  refine ⟨⟨htext (by decide), htext (by decide), 1, 2, by decide, fun h => ?_⟩,
    ⟨htext (by decide), htext (by decide), 0, 0, by decide, fun h => ?_⟩,
    ⟨htext (by decide), htext (by decide), 1, 1, by decide, fun h => ?_⟩,
    ⟨htext (by decide), photoList_wellFormed (by decide) (by decide), 1, 3, by decide,
      fun h => ?_⟩⟩
  · have hlonger := h.2 2 3 (textRun_of_text (by decide) (by decide) (by decide))
      (textRun_of_text (by decide) (by decide) (by decide))
      (textList_matches (by decide) (by decide) (by decide) (by decide) (by decide))
    exact absurd hlonger.1 (by decide)
  · have hlonger := h.2 1 0 (textRun_of_text (by decide) (by decide) (by decide))
      (textRun_of_text (by decide) (by decide) (by decide))
      (textList_matches (by decide) (by decide) (by decide) (by decide) (by decide))
    exact absurd hlonger.1 (by decide)
  · have hlonger := h.2 1 2 (textRun_of_text (by decide) (by decide) (by decide))
      (textRun_of_text (by decide) (by decide) (by decide))
      (textList_matches (by decide) (by decide) (by decide) (by decide) (by decide))
    exact absurd hlonger.2 (by decide)
  · exact absurd h.1.content (by decide)

end ServerTokens

end PxqLlama.Server
