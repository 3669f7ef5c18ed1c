import PxqLlama.Proofs.Server.SlotFile
import PxqLlama.Proofs.Server.ThinkMedia

/-!
# `Proofs.Server.TokenOps`: which operations keep a list well formed

Most operations always do. Five do so only for some lists (`Safe`): `clear` and `resize` leave the
media map as it is, so a chunk of the tokens that they remove stays in it; `push_back` of another
list pushes its tokens one by one, and the push of a null token throws; `push_back` of a text chunk
that holds a null token throws with the tokens before it pushed; and
`get_tokens_exclude_think` can cut a chunk (`Cut`).

`call_meets_iff` says that these are all. What the assertions of the code ask for is part of
`Applies`; the one on `has_mtmd` is about lists that keep `MediaAllowed`, and every operation leaves
such a list (`call_mediaAllowed`).
-/

namespace PxqLlama.Server

namespace ServerTokens

/-! ### What the operations are asked for -/

/-- The call yields a well-formed list, or it throws with the list unchanged. -/
def KeepsWellFormed (s : ServerTokens) : TokensCall → Prop
  | .returns s' => s'.WellFormed
  | .throws s' => s' = s
  | .aborts => False

/-- The call puts the tokens of `b` behind those of `s`, and the media of `b` with them. -/
def Appends (s b : ServerTokens) : TokensCall → Prop
  | .returns s' => s'.tokens = s.tokens ++ b.tokens ∧
      s'.mapIdxToMedia = s.mapIdxToMedia.insertAll (shiftMedia s.size b.mapIdxToMedia.entries)
  | .throws _ => False
  | .aborts => False

/-- What is asked of an operation. -/
def Meets (txt : TokenText) (s : ServerTokens) (op : TokenOp) : Prop :=
  s.KeepsWellFormed (s.call txt op) ∧ ∀ b, op = .pushList b → s.Appends b (s.call txt op)

/-- The arguments that an operation is asked about: those of the claim, on which no assertion
fails. -/
def Applies (s : ServerTokens) : TokenOp → Prop
  | .pushChunk chunk => chunk.type ≠ .text → s.hasMtmd = true
  | .pushList b => b.WellFormed ∧ b.MediaAllowed ∧ (b.hasMtmd = true → s.hasMtmd = true)
  | .keepFirst n => n ≤ s.size
  | .resize n => n ≤ s.size
  | .discard nKeep nDiscard => s.ChunkBoundary nKeep ∧ s.ChunkBoundary (nKeep + nDiscard)
  | .excludeThink think => think.exclude = true → think.begin ≠ [] ∧ think.end ≠ []
  | _ => True

/-- All chunks end in front of the place `n`. -/
def EndsBy (s : ServerTokens) (n : Nat) : Prop :=
  ∀ p ∈ s.mapIdxToMedia.entries, p.1 + p.2.nTokens ≤ n

/-- The parts of the text that `get_tokens_exclude_think` leaves out. -/
def thinkParts (txt : TokenText) (s : ServerTokens) (think : ThinkingTokens) :
    List (Nat × Nat) :=
  let str := txt.detokenize (s.tokens.filter (· ≠ llamaTokenNull))
  thinkSpans (occurrences str think.begin (str.length + 1) 0)
    ((occurrences str think.end (str.length + 1) 0).map (· + think.end.length))

/-- Where an operation does what is asked of it. -/
def Safe (txt : TokenText) (s : ServerTokens) : TokenOp → Prop
  | .pushChunk chunk => chunk.type = .text →
      llamaTokenNull ∉ chunk.tokensText ∨ chunk.tokensText.head? = some llamaTokenNull
  | .pushList b => llamaTokenNull ∉ b.tokens
  | .clear => s.EndsBy 0
  | .resize n => s.EndsBy n
  | .excludeThink think => think.exclude = true →
      ∀ p ∈ s.mapIdxToMedia.entries, ¬ Cut txt (s.thinkParts txt think) s p
  | _ => True

/-! ### Pushing -/

variable {s : ServerTokens} {toks : List Int} {n : Nat}

theorem pushEach_text (htext : llamaTokenNull ∉ toks) :
    s.pushEach toks = .returns { s with tokens := s.tokens ++ toks } := by
  induction toks generalizing s with
  | nil => rw [pushEach, List.append_nil]
  | cons t toks ih =>
    obtain ⟨ht, htoks⟩ := not_or.mp fun h => htext (List.mem_cons.mpr h)
    rw [pushEach, pushToken, if_neg fun h => ht h.symm]
    show pushEach _ toks = _
    rw [ih htoks, List.append_assoc]
    rfl

/-- The tokens in front of the null token stay pushed. -/
theorem pushEach_null (hnull : llamaTokenNull ∈ toks) :
    s.pushEach toks =
      .throws { s with tokens := s.tokens ++ toks.takeWhile (· ≠ llamaTokenNull) } := by
  induction toks generalizing s with
  | nil => exact nomatch hnull
  | cons t toks ih =>
    rw [pushEach, pushToken, List.takeWhile_cons]
    by_cases ht : t = llamaTokenNull
    · rw [if_pos ht, if_neg (by simpa using ht), List.append_nil]
    · rw [if_neg ht, if_pos (by simpa using ht)]
      show pushEach _ toks = _
      rw [ih ((List.mem_cons.mp hnull).resolve_left fun h => ht h.symm), List.append_assoc]
      rfl

theorem WellFormed.pushText (hs : s.WellFormed) (htext : llamaTokenNull ∉ toks) :
    WellFormed { s with tokens := s.tokens ++ toks } := by
  have happend := hs.append (wellFormed_text s.hasMtmd htext)
  rw [append_text] at happend
  exact happend

theorem pushToken_keeps (hs : s.WellFormed) (tok : Int) : s.KeepsWellFormed (s.pushToken tok) := by
  rw [pushToken]
  split
  · exact rfl
  · rename_i htok
    exact hs.pushText fun h => htok (List.mem_singleton.mp h).symm

theorem pushMedia_keeps (hs : s.WellFormed) (hmtmd : s.hasMtmd = true) (chunk : InputChunk) :
    s.KeepsWellFormed (s.pushMedia chunk) := by
  rw [pushMedia, if_neg (not_not_intro hmtmd)]
  have happend := hs.append (wellFormed_media s.hasMtmd chunk)
  rw [append_media] at happend
  exact happend

/-- Pushed text is well formed, or the first token already throws. -/
theorem pushEach_keeps_iff (hs : s.WellFormed) (toks : List Int) :
    s.KeepsWellFormed (s.pushEach toks) ↔
      llamaTokenNull ∉ toks ∨ toks.head? = some llamaTokenNull := by
  by_cases hnull : llamaTokenNull ∈ toks
  · rw [pushEach_null hnull]
    show _ = s ↔ _
    constructor
    · intro hsame
      have htokens : s.tokens ++ toks.takeWhile (· ≠ llamaTokenNull) = s.tokens :=
        congrArg ServerTokens.tokens hsame
      have hnil := List.append_right_eq_self.mp htokens
      cases toks with
      | nil => exact nomatch hnull
      | cons t toks =>
        refine Or.inr (congrArg some ?_)
        by_contra ht
        rw [List.takeWhile_cons, if_pos (by simpa using ht)] at hnil
        exact nomatch hnil
    · intro h
      have hhead := h.resolve_left (not_not_intro hnull)
      cases toks with
      | nil => exact nomatch hnull
      | cons t toks =>
        obtain rfl := Option.some.inj hhead
        rw [List.takeWhile_cons, if_neg (by simp), List.append_nil]
  · rw [pushEach_text hnull]
    exact ⟨fun _ => Or.inl hnull, fun _ => hs.pushText hnull⟩

/-- A text chunk keeps the list well formed when it has no null token, or begins with one. -/
theorem pushChunk_keeps_iff (hs : s.WellFormed) {chunk : InputChunk}
    (hmtmd : chunk.type ≠ .text → s.hasMtmd = true) :
    s.KeepsWellFormed (s.pushChunk chunk) ↔
      (chunk.type = .text →
        llamaTokenNull ∉ chunk.tokensText ∨ chunk.tokensText.head? = some llamaTokenNull) := by
  rw [pushChunk]
  cases htype : chunk.type with
  | text =>
    rw [← pushEach_keeps_iff hs]
    exact ⟨fun h _ => h, fun h => h rfl⟩
  | image => exact ⟨fun _ => nofun, fun _ => pushMedia_keeps hs (hmtmd (by simp [htype])) chunk⟩
  | audio => exact ⟨fun _ => nofun, fun _ => pushMedia_keeps hs (hmtmd (by simp [htype])) chunk⟩

/-- A list of text is appended, and so is what its media map holds. A list with a null token is
not. -/
theorem pushList_meets_iff {b : ServerTokens} (hs : s.WellFormed) (hb : b.WellFormed)
    (hmedia : b.MediaAllowed) (hallowed : b.hasMtmd = true → s.hasMtmd = true) :
    (s.KeepsWellFormed (s.pushList b) ∧ s.Appends b (s.pushList b)) ↔
      llamaTokenNull ∉ b.tokens := by
  rw [pushList]
  by_cases hnull : llamaTokenNull ∈ b.tokens
  · rw [pushEach_null hnull]
    exact ⟨fun h => h.2.elim, fun h => absurd hnull h⟩
  · rw [pushEach_text hnull]
    refine ⟨fun _ => hnull, fun _ => ?_⟩
    have happend := hs.append hb
    show s.KeepsWellFormed (if b.hasMtmd = true then if ¬ s.hasMtmd = true then .aborts
      else .returns (s.append b) else .returns _) ∧ s.Appends b (if b.hasMtmd = true then
        if ¬ s.hasMtmd = true then .aborts else .returns (s.append b) else .returns _)
    by_cases hmtmd : b.hasMtmd = true
    · rw [if_pos hmtmd, if_neg (not_not_intro (hallowed hmtmd))]
      exact ⟨happend, rfl, rfl⟩
    · have hempty : b.mapIdxToMedia.entries = [] := hmedia.resolve_left hmtmd
      have hsame : s.mapIdxToMedia.insertAll (shiftMedia s.size b.mapIdxToMedia.entries) =
          s.mapIdxToMedia := by
        rw [hempty]
        rfl
      rw [append, hsame] at happend
      rw [if_neg hmtmd]
      exact ⟨happend, rfl, hsame.symm⟩

/-! ### Removing -/

/-- A cut never leaves half a chunk. -/
theorem keepFirstCall_keeps (hs : s.WellFormed) (hmedia : s.MediaAllowed) (hn : n ≤ s.size) :
    s.KeepsWellFormed (s.keepFirstCall n) := by
  have hle : ¬ s.size < n := Nat.not_lt.mpr hn
  rw [keepFirstCall, if_neg hle]
  rcases Nat.eq_or_lt_of_le hn with heq | hlt
  · -- All tokens stay, and so does the media map.
    have hall : s.keepFirst n = some s := by
      rw [keepFirst, if_neg hle, if_pos heq, heq]
      show (if s.hasMtmd = true then some s else
        some { s with tokens := s.tokens.take s.tokens.length }) = _
      rw [List.take_length, ite_self]
    rw [hall]
    exact hs
  · rcases keepFirst_eq hs hmedia hlt with ⟨hcut, heq⟩ | ⟨-, heq⟩
    · rw [heq]
      exact hs.upTo hcut
    · rw [heq]
      exact rfl

/-- Tokens that are removed without their media leave a well-formed list when they have none. -/
theorem take_wellFormed_iff (hs : s.WellFormed) (n : Nat) :
    WellFormed { s with tokens := s.tokens.take n } ↔ s.EndsBy n := by
  constructor
  · intro h p hp
    have hin := h.inside p hp
    rw [size, List.length_take] at hin
    exact Nat.le_trans hin (Nat.min_le_left _ _)
  · intro hends
    constructor
    · intro p hp
      rw [size, List.length_take]
      exact Nat.le_min.mpr ⟨hends p hp, hs.inside p hp⟩
    · exact hs.disjoint
    · intro i
      show (s.tokens.take n)[i]? = _ ↔ _
      rw [List.getElem?_take]
      split
      · exact hs.nulls i
      · rename_i hi
        refine ⟨fun h => (by cases h), fun h => ?_⟩
        obtain ⟨p, hp, -, hlt⟩ := h
        exact absurd (Nat.lt_of_lt_of_le hlt (hends p hp)) hi

theorem resize_wellFormed_iff (hs : s.WellFormed) (hn : n ≤ s.size) :
    (s.resize n).WellFormed ↔ s.EndsBy n := by
  have hsmaller : s.resize n = { s with tokens := s.tokens.take n } := by
    rw [resize, Nat.sub_eq_zero_of_le hn, List.replicate_zero, List.append_nil]
  rw [hsmaller]
  exact take_wellFormed_iff hs n

theorem clear_wellFormed_iff (hs : s.WellFormed) : s.clear.WellFormed ↔ s.EndsBy 0 :=
  take_wellFormed_iff hs 0

/-- Discarding whole chunks keeps the list well formed. -/
theorem discardCall_keeps (hs : s.WellFormed) (hmedia : s.MediaAllowed) {nKeep nDiscard : Nat}
    (hkeep : s.ChunkBoundary nKeep) (hbehind : s.ChunkBoundary (nKeep + nDiscard)) :
    s.KeepsWellFormed (s.discardCall nKeep nDiscard) := by
  rw [discardCall]
  rcases discardNTokens_eq hs hmedia hkeep with heq | heq
  · rw [heq]
    exact hs
  · rw [heq]
    exact (hs.upTo hkeep).append (hs.beyond hbehind)

/-! ### Making a list of another one -/

variable {think : ThinkingTokens} {kept : ServerTokens}

theorem getTokensExcludeThink_eq (txt : TokenText) (s : ServerTokens)
    (hexclude : think.exclude = true) (hbegin : think.begin ≠ []) (hend : think.end ≠ []) :
    s.getTokensExcludeThink txt think = some (if s.thinkParts txt think = [] then s
      else excludeThink txt s (s.thinkParts txt think) s.tokens 0 0 0
        { hasMtmd := s.hasMtmd }) := by
  rw [getTokensExcludeThink, if_neg (not_not_intro hexclude), if_neg (by simp [hbegin, hend])]
  cases hparts : s.thinkParts txt think with
  | nil =>
    simp only [thinkParts] at hparts
    simp only [hparts]
    rfl
  | cons span spans =>
    simp only [thinkParts] at hparts
    simp only [hparts]
    rfl

/-- Leaving out the thinking keeps it exactly when no chunk is cut. -/
theorem excludeThink_keeps_iff (txt : TokenText) (hs : s.WellFormed)
    (htags : think.exclude = true → think.begin ≠ [] ∧ think.end ≠ []) :
    s.KeepsWellFormed (s.call txt (.excludeThink think)) ↔ s.Safe txt (.excludeThink think) := by
  simp only [call]
  by_cases hexclude : think.exclude = true
  · obtain ⟨hbegin, hend⟩ := htags hexclude
    rw [getTokensExcludeThink_eq txt s hexclude hbegin hend]
    show WellFormed _ ↔ _
    split
    · rename_i hnone
      refine ⟨fun _ _ p _ hcut => ?_, fun _ => hs⟩
      obtain ⟨r, -, -, hlt, -⟩ := hcut
      rw [hnone] at hlt
      cases hlt
    · rw [excludeThink_wellFormed_iff txt hs]
      exact ⟨fun h _ => h, fun h => h hexclude⟩
  · rw [getTokensExcludeThink, if_pos hexclude]
    exact ⟨fun _ h => absurd h hexclude, fun _ => hs⟩

theorem json_returns (txt : TokenText) (s old : ServerTokens) :
    s.call txt (.json old) = .returns s := by
  have hread := fromJson_jsonFields s old []
  rw [List.append_nil] at hread
  simp only [call, hread]

/-! ### Where media are allowed -/

theorem keepFirst_hasMtmd (h : s.keepFirst n = some kept) :
    kept.hasMtmd = s.hasMtmd ∧ (s.hasMtmd = false → kept.mapIdxToMedia = s.mapIdxToMedia) := by
  rw [keepFirst] at h
  split at h
  · cases h
  · split at h
    · rename_i hmtmd
      refine ⟨?_, fun hfalse => absurd hmtmd (by simp [hfalse])⟩
      split at h
      · obtain rfl := Option.some.inj h
        rfl
      · split at h
        · cases h
        · obtain rfl := Option.some.inj h
          rfl
    · obtain rfl := Option.some.inj h
      exact ⟨rfl, fun _ => rfl⟩

theorem keepFirst_mediaAllowed (hmedia : s.MediaAllowed) (h : s.keepFirst n = some kept) :
    kept.MediaAllowed := by
  obtain ⟨hmtmd, hmap⟩ := keepFirst_hasMtmd h
  cases hflag : s.hasMtmd with
  | true => exact Or.inl (hmtmd.trans hflag)
  | false =>
    refine Or.inr ?_
    rw [hmap hflag]
    exact hmedia.resolve_left (by simp [hflag])

theorem discardNTokens_mediaAllowed (hmedia : s.MediaAllowed) {nKeep nDiscard : Nat}
    (h : s.discardNTokens nKeep nDiscard = some kept) : kept.MediaAllowed := by
  rw [discardNTokens] at h
  split at h
  · exact Option.some.inj h ▸ hmedia
  · obtain ⟨front, hfront, rfl⟩ := Option.map_eq_some_iff.mp h
    obtain ⟨hmtmd, hmap⟩ := keepFirst_hasMtmd hfront
    cases hflag : s.hasMtmd with
    | true => exact Or.inl (hmtmd.trans hflag)
    | false =>
      -- without media there is nothing behind the discarded tokens
      have hnone : s.mapIdxToMedia.entries = [] := hmedia.resolve_left (by simp [hflag])
      refine Or.inr ?_
      show (front.mapIdxToMedia.insertAll _).entries = []
      rw [hmap hflag, hnone]
      exact hnone

theorem pick_mediaAllowed (hmedia : s.MediaAllowed) (K : List Nat) : (s.pick K).MediaAllowed := by
  rcases hmedia with hmtmd | hnone
  · refine Or.inl ?_
    have hkept : ∀ res : ServerTokens, (K.foldl (keepPlace s) res).hasMtmd = res.hasMtmd := by
      induction K with
      | nil => exact fun _ => rfl
      | cons k K ih => exact fun res => ih (keepPlace s res k)
    exact (hkept _).trans hmtmd
  · refine Or.inr (List.eq_nil_iff_forall_not_mem.mpr fun p hp => ?_)
    obtain ⟨k, -, hmem⟩ := mem_pick.mp hp
    rw [hnone] at hmem
    cases hmem

/-- What a call leaves has the property, unless an assertion fails. -/
def Leaves (P : ServerTokens → Prop) : TokensCall → Prop
  | .returns s => P s
  | .throws s => P s
  | .aborts => True

theorem pushEach_leaves (hmedia : s.MediaAllowed) (toks : List Int) :
    Leaves MediaAllowed (s.pushEach toks) := by
  by_cases hnull : llamaTokenNull ∈ toks
  · rw [pushEach_null hnull]
    exact hmedia
  · rw [pushEach_text hnull]
    exact hmedia

theorem pushMedia_leaves (s : ServerTokens) (chunk : InputChunk) :
    Leaves MediaAllowed (s.pushMedia chunk) := by
  rw [pushMedia]
  split
  · trivial
  · rename_i hmtmd
    exact Or.inl (not_not.mp hmtmd)

theorem pushList_leaves (hmedia : s.MediaAllowed) (b : ServerTokens) :
    Leaves MediaAllowed (s.pushList b) := by
  rw [pushList]
  by_cases hnull : llamaTokenNull ∈ b.tokens
  · rw [pushEach_null hnull]
    exact hmedia
  · rw [pushEach_text hnull]
    simp only
    split
    · split
      · trivial
      · rename_i hmtmd
        exact Or.inl (not_not.mp hmtmd)
    · exact hmedia

theorem excludeThink_leaves (txt : TokenText) (hmedia : s.MediaAllowed) (think : ThinkingTokens) :
    Leaves MediaAllowed (s.call txt (.excludeThink think)) := by
  simp only [call]
  by_cases hexclude : think.exclude = true
  · by_cases hempty : think.begin = [] ∨ think.end = []
    · rw [getTokensExcludeThink, if_neg (not_not_intro hexclude), if_pos hempty]
      trivial
    · obtain ⟨hbegin, hend⟩ := not_or.mp hempty
      rw [getTokensExcludeThink_eq txt s hexclude hbegin hend]
      show MediaAllowed _
      split
      · exact hmedia
      · rw [excludeThink_eq]
        exact pick_mediaAllowed hmedia _
  · rw [getTokensExcludeThink, if_pos hexclude]
    exact hmedia

/-- Every operation leaves a list that may hold the media it holds. -/
theorem call_mediaAllowed (txt : TokenText) (hmedia : s.MediaAllowed) (op : TokenOp) :
    Leaves MediaAllowed (s.call txt op) := by
  cases op with
  | pushToken tok =>
    rw [call, pushToken]
    split <;> exact hmedia
  | pushChunk chunk =>
    rw [call, pushChunk]
    split
    · exact pushMedia_leaves s chunk
    · exact pushMedia_leaves s chunk
    · exact pushEach_leaves hmedia _
  | pushList b => exact pushList_leaves hmedia b
  | keepFirst n =>
    rw [call, keepFirstCall]
    split
    · trivial
    · split
      · rename_i hkept
        exact keepFirst_mediaAllowed hmedia hkept
      · exact hmedia
  | clear => exact hmedia
  | resize n => exact hmedia
  | discard nKeep nDiscard =>
    rw [call, discardCall]
    split
    · rename_i hkept
      exact discardNTokens_mediaAllowed hmedia hkept
    · exact hmedia
  | excludeThink think => exact excludeThink_leaves txt hmedia think
  | clone => exact hmedia
  | json old =>
    rw [json_returns]
    exact hmedia

/-! ### All operations -/

/-- An operation on a well-formed list does what is asked of it exactly when it is safe. -/
theorem call_meets_iff (txt : TokenText) (s : ServerTokens) (op : TokenOp) (hs : s.WellFormed)
    (hmedia : s.MediaAllowed) (happlies : s.Applies op) :
    s.Meets txt op ↔ s.Safe txt op := by
  cases op with
  | pushList b =>
    rw [← show _ ↔ s.Safe txt (.pushList b) from
      pushList_meets_iff hs happlies.1 happlies.2.1 happlies.2.2]
    apply and_congr_right
    intro _
    constructor
    · exact fun h => h b rfl
    · intro h b' hb'
      obtain rfl := TokenOp.pushList.inj hb'
      exact h
  | pushToken tok => exact ⟨fun _ => trivial, fun _ => ⟨pushToken_keeps hs tok, nofun⟩⟩
  | pushChunk chunk =>
    exact (and_iff_left nofun).trans (pushChunk_keeps_iff hs happlies)
  | keepFirst n => exact ⟨fun _ => trivial, fun _ => ⟨keepFirstCall_keeps hs hmedia happlies, nofun⟩⟩
  | clear => exact (and_iff_left nofun).trans (clear_wellFormed_iff hs)
  | resize n => exact (and_iff_left nofun).trans (resize_wellFormed_iff hs happlies)
  | discard nKeep nDiscard =>
    exact ⟨fun _ => trivial,
      fun _ => ⟨discardCall_keeps hs hmedia happlies.1 happlies.2, nofun⟩⟩
  | excludeThink think => exact (and_iff_left nofun).trans (excludeThink_keeps_iff txt hs happlies)
  | clone => exact ⟨fun _ => trivial, fun _ => ⟨hs, nofun⟩⟩
  | json old =>
    rw [Meets, json_returns]
    exact ⟨fun _ => trivial, fun _ => ⟨hs, nofun⟩⟩

/-! An image between two tokens, of two places. -/

def imageChunk : InputChunk :=
  { type := .image, tokensImage := some { nx := 2, ny := 1, id := "a" } }

def imageList : ServerTokens where
  hasMtmd := true
  mapIdxToMedia := OrderedMap.empty.insert 1 imageChunk
  tokens := [1, llamaTokenNull, llamaTokenNull, 2]

def emptyText : TokenText where
  piece := fun _ => []
  detokenize := fun _ => []

theorem imageList_wellFormed : imageList.WellFormed :=
  have hfront : llamaTokenNull ∉ ([1] : List Int) := by decide
  have hback : llamaTokenNull ∉ ([2] : List Int) := by decide
  ((wellFormed_text true hfront).append (wellFormed_media true imageChunk)).append
    (wellFormed_text true hback)

/-- The image may be kept whole, and must not be cut off. -/
theorem call_meets_imageList :
    imageList.Meets emptyText (.resize 3) ∧ ¬ imageList.Meets emptyText (.resize 1) := by
  constructor
  · apply (call_meets_iff emptyText imageList (.resize 3) imageList_wellFormed (Or.inl rfl)
      (by show 3 ≤ 4; decide)).mpr
    show ∀ p ∈ [(1, imageChunk)], p.1 + p.2.nTokens ≤ 3
    decide
  · intro hmeets
    have hsafe := (call_meets_iff emptyText imageList (.resize 1) imageList_wellFormed (Or.inl rfl)
      (by show 1 ≤ 4; decide)).mp hmeets
    have hends : 1 + 2 ≤ 1 := hsafe (1, imageChunk) List.mem_cons_self
    exact absurd hends (by decide)

/-- `clear` leaves the image in the map of an empty list. -/
theorem clear_not_meets :
    imageList.WellFormed ∧ imageList.MediaAllowed ∧ imageList.Applies .clear ∧
      ¬ imageList.Meets emptyText .clear := by
  refine ⟨imageList_wellFormed, Or.inl rfl, trivial, fun hmeets => ?_⟩
  have hwf : imageList.clear.WellFormed := hmeets.1
  have hin : 1 + 2 ≤ 0 := hwf.inside (1, imageChunk) List.mem_cons_self
  exact absurd hin (by decide)

end ServerTokens

end PxqLlama.Server
