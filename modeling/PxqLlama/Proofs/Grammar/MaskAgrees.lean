import PxqLlama.Proofs.Grammar.Mask

/-!
# `Proofs.Grammar.MaskAgrees`: where masking and accepting agree

`sampleImpl_settles` says which candidates `sampleImpl` leaves. `maskAgrees_iff` compares this with
what `acceptToken` does: a token that is left is accepted, and one that leads to a stack that can go
on is left, exactly where it is `Harmless`. `token_inside_piece` is a token for which they differ.
-/

namespace PxqLlama.Grammar

variable {rules : Rules}

/-! ### The mask -/

theorem candidateOf_eq {grammar : LlamaGrammar} {vocab : Vocab} {index id : Nat}
    (heog : vocab.isEog id = false) (hpiece : vocab.tokenToPiece id ≠ [])
    (hfirst : (vocab.tokenToPiece id).head? ≠ some 0) :
    candidateOf grammar vocab index id = some {
      index := index
      codePoints := (decodeUtf8 (vocab.tokenToPiece id) grammar.partialUtf8).1
      partialUtf8 := (decodeUtf8 (vocab.tokenToPiece id) grammar.partialUtf8).2
      id := id } := by
  unfold candidateOf
  rw [if_neg]
  simp [heog, hpiece, hfirst]

theorem candidateOf_index {grammar : LlamaGrammar} {vocab : Vocab} {index id : Nat}
    {tok : Candidate} (h : candidateOf grammar vocab index id = some tok) : tok.index = index := by
  simp only [candidateOf] at h
  split at h
  · cases h
  · cases h
    rfl

theorem le_foldr_max {l : List Nat} {x : Nat} (h : x ∈ l) : x ≤ l.foldr max 0 := by
  induction l with
  | nil => cases h
  | cons y l ih =>
    rw [List.foldr_cons]
    rcases List.mem_cons.mp h with rfl | h
    · exact Nat.le_max_left _ _
    · exact Nat.le_trans (ih h) (Nat.le_max_right _ _)

/-- The candidates that the mask leaves: an end of generation where a stack is empty, and another
token where a stack does not reject it. -/
theorem sampleImpl_settles (hreg : Regular rules) {grammar : LlamaGrammar} {vocab : Vocab}
    (hrules : grammar.rules = rules) (hne : grammar.grammarStacks ≠ [])
    (hready : ∀ s ∈ grammar.grammarStacks, Ready rules s) (candidates : List Nat) :
    ∃ masked, Settles (fun n => sampleImpl n grammar vocab candidates) masked ∧
      ∀ (i : Nat) (id : Nat), candidates[i]? = some id → vocab.tokenToPiece id ≠ [] →
        (vocab.tokenToPiece id).head? ≠ some 0 → 0 ∉ pieceCodePoints grammar vocab id →
        (masked[i]? = some false ↔
          if vocab.isEog id then [] ∈ grammar.grammarStacks else LetThrough grammar vocab id) := by
  subst hrules
  obtain ⟨rejects, hrejects, hsettles⟩ := @rejectCandidates_settles grammar.rules hreg
    (((candidates.zipIdx.filterMap fun p => candidateOf grammar vocab p.2 p.1).map fun tok =>
      tok.codePoints.length).foldr max 0 + 1) grammar.grammarStacks hne hready
    (candidates.zipIdx.filterMap fun p => candidateOf grammar vocab p.2 p.1)
    (fun tok htok => by
      have hlen : tok.remaining.length ≤ tok.codePoints.length :=
        (List.takeWhile_sublist _).length_le.trans (by rw [List.length_drop]; exact Nat.sub_le _ _)
      exact Nat.lt_succ_of_le (hlen.trans (le_foldr_max (List.mem_map.mpr ⟨tok, htok, rfl⟩))))
  refine ⟨_, hsettles.map _, ?_⟩
  intro i id hid hpiece hfirst hzero
  have hzip : (id, i) ∈ candidates.zipIdx := List.mem_zipIdx_iff_getElem?.mpr hid
  rw [List.getElem?_map, List.getElem?_zipIdx, hid]
  simp only [Option.map_some, Option.some.injEq, Nat.zero_add]
  by_cases heog : vocab.isEog id = true
  · simp [heog]
  · simp only [Bool.not_eq_true] at heog
    simp only [heog, hpiece, hfirst, or_self, if_false, Bool.false_eq_true]
    have hcand := @candidateOf_eq grammar vocab i id heog hpiece hfirst
    generalize htok : Candidate.mk i (decodeUtf8 (vocab.tokenToPiece id) grammar.partialUtf8).1 0
      (decodeUtf8 (vocab.tokenToPiece id) grammar.partialUtf8).2 id = tok at hcand
    -- the only candidate with this index
    have hany : rejects.any (fun r => decide (r.index = i)) = true ↔ tok ∈ rejects := by
      rw [List.any_eq_true]
      constructor
      · rintro ⟨tok', htok', hindex⟩
        obtain ⟨⟨id', i'⟩, hmem, hcand'⟩ := List.mem_filterMap.mp ((hrejects tok').mp htok').1
        have hi : i' = i := (candidateOf_index hcand').symm.trans (by simpa using hindex)
        have hid' := List.mem_zipIdx_iff_getElem?.mp hmem
        rw [hi] at hid' hcand'
        have heq : id' = id := Option.some.inj (hid'.symm.trans hid)
        rw [heq, hcand] at hcand'
        rwa [Option.some.inj hcand']
      · exact fun h => ⟨tok, h, by rw [← htok]; simp⟩
    have hremaining : tok.remaining = pieceCodePoints grammar vocab id := by
      rw [← htok]
      show (((decodeUtf8 (vocab.tokenToPiece id) grammar.partialUtf8).1.drop 0).takeWhile _) = _
      rw [List.drop_zero, decodeUtf8_zero, List.takeWhile_append_of_pos]
      · simp [pieceCodePoints]
      · intro c hc
        have hne : c ≠ 0 := fun heq => hzero (heq ▸ hc)
        simpa using hne
    have hmem : tok ∈ candidates.zipIdx.filterMap fun p => candidateOf grammar vocab p.2 p.1 :=
      List.mem_filterMap.mpr ⟨(id, i), hzip, hcand⟩
    rw [← Bool.not_eq_true, hany, hrejects]
    unfold LetThrough AdmitsCandidate
    rw [hremaining]
    have hcut : tok.partialUtf8 = piecePartial grammar vocab id := by rw [← htok]; rfl
    have hidtok : tok.id = id := by rw [← htok]
    rw [hcut, hidtok]
    simp [hmem]

/-! ### Agreement -/

/-- The smallest character with so many bytes to come. -/
def smallestCode (nRemain : Int) : Nat := if nRemain = 1 then 0x80 else minCode nRemain

/-- A character that the partial one can become. One that is written with more bytes than it needs
does not count. -/
def IsCompletion (partialUtf8 : PartialUtf8) (c : Nat) : Prop :=
  0 < partialUtf8.nRemain ∧ partialUtf8.value * 64 ^ partialUtf8.nRemain.toNat ≤ c ∧
    c < (partialUtf8.value + 1) * 64 ^ partialUtf8.nRemain.toNat ∧
    smallestCode partialUtf8.nRemain ≤ c

/-- A completion of the partial character matches on top of the stack. -/
def Completes (rules : Rules) (partialUtf8 : PartialUtf8) (s : Stack) : Prop :=
  ∃ p rest c, s = p :: rest ∧ isTokenElement (elementAt rules p) = false ∧
    IsCompletion partialUtf8 c ∧ (matchChar rules p c).1 = true

/-- The stack can go on with some completion of the partial character, where there is one. -/
def CanContinue (rules : Rules) (partialUtf8 : PartialUtf8) (s : Stack) : Prop :=
  partialUtf8.nRemain = 0 ∨ Completes rules partialUtf8 s

/-- What is left unmasked is accepted, and what leads to a stack that can go on is left unmasked. -/
structure Agrees (vocab : Vocab) (id : Nat) (masked : Option Bool) (accepted : LlamaGrammar) :
    Prop where
  accepts : vocab.isEog id = false → masked = some false → accepted.grammarStacks ≠ []
  leaves : (∃ s ∈ accepted.grammarStacks, CanContinue accepted.rules accepted.partialUtf8 s) →
    masked = some false

/-- Some stack takes the token. -/
def Taken (grammar : LlamaGrammar) (vocab : Vocab) (id : Nat) (t : Stack) : Prop :=
  ∃ s ∈ grammar.grammarStacks, Takes grammar.rules id (pieceCodePoints grammar vocab id) s t

/-- Where masking and accepting agree on a token. -/
structure Harmless (grammar : LlamaGrammar) (vocab : Vocab) (id : Nat) : Prop where
  /-- No stack goes over a part of the piece to a token element that matches the token, unless one
  takes the token. -/
  whole : vocab.isEog id = false → ∀ s ∈ grammar.grammarStacks, ∀ first last t,
    pieceCodePoints grammar vocab id = first ++ last → first ≠ [] → last ≠ [] →
    Walk grammar.rules first s t → TokenTop grammar.rules id t → ∃ t', Taken grammar vocab id t'
  /-- No stack goes over the piece to a negated character element that some completion of the
  partial character matches and another not, unless one lets the token through. -/
  negated : vocab.isEog id = false → ∀ s ∈ grammar.grammarStacks, ∀ p rest,
    CharTop grammar.rules s → Walk grammar.rules (pieceCodePoints grammar vocab id) s (p :: rest) →
    (elementAt grammar.rules p).type = .charNot →
    matchPartialChar grammar.rules p (piecePartial grammar vocab id) = false →
    Completes grammar.rules (piecePartial grammar vocab id) (p :: rest) →
    LetThrough grammar vocab id
  /-- A piece that is only a part of a character is not taken as a token before a character element
  that a completion matches, unless a stack lets it through. -/
  begun : vocab.isEog id = false → pieceCodePoints grammar vocab id = [] →
    ∀ s ∈ grammar.grammarStacks, ∀ t, TokenStep grammar.rules id s t →
    Completes grammar.rules (piecePartial grammar vocab id) t → LetThrough grammar vocab id
  /-- An end of generation is not taken where it can go on, unless a stack is empty. -/
  eog : vocab.isEog id = true → ∀ t, Taken grammar vocab id t →
    CanContinue grammar.rules (piecePartial grammar vocab id) t → [] ∈ grammar.grammarStacks

/-- A stack admits a token when it goes over the first code points to a stack that lets the rest
through. -/
theorem admits_iff {id : Nat} {partialUtf8 : PartialUtf8} {cs : List Nat} {s : Stack} :
    Admits rules id partialUtf8 cs s ↔ ∃ first last t, cs = first ++ last ∧
      Walk rules first s t ∧ (last = [] ∧ AdmitsPartial rules partialUtf8 t ∨
        last ≠ [] ∧ TokenTop rules id t) := by
  induction cs generalizing s with
  | nil =>
    constructor
    · exact fun h => ⟨[], [], s, rfl, rfl, .inl ⟨rfl, h⟩⟩
    · rintro ⟨first, last, t, hnil, hwalk, h⟩
      obtain ⟨rfl, rfl⟩ := List.append_eq_nil_iff.mp hnil.symm
      rcases h with ⟨-, h⟩ | ⟨hne, -⟩
      · exact (show s = t from hwalk) ▸ h
      · exact absurd rfl hne
  | cons c cs ih =>
    constructor
    · rintro (htop | ⟨s', hstep, hadmits⟩)
      · exact ⟨[], c :: cs, s, rfl, rfl, .inr ⟨List.cons_ne_nil c cs, htop⟩⟩
      · obtain ⟨first, last, t, hcs, hwalk, h⟩ := ih.mp hadmits
        exact ⟨c :: first, last, t, by rw [hcs]; rfl, ⟨s', hstep, hwalk⟩, h⟩
    · rintro ⟨first, last, t, hcs, hwalk, h⟩
      cases first with
      | nil =>
        have hst : s = t := hwalk
        rcases h with ⟨hnil, -⟩ | ⟨-, htop⟩
        · rw [hnil] at hcs
          cases hcs
        · exact .inl (hst ▸ htop)
      | cons c' first =>
        obtain ⟨s', hstep, hwalk⟩ := hwalk
        cases hcs
        exact .inr ⟨s', hstep, ih.mpr ⟨first, last, t, rfl, hwalk, h⟩⟩

/-- A positive character element that a completion matches does not reject the partial character. -/
theorem matchPartialChar_of_positive {partialUtf8 : PartialUtf8} {p : Pos} {c : Nat}
    (hpositive : isPositiveChar (elementAt rules p) = true) (hc : IsCompletion partialUtf8 c)
    (hmatch : (matchChar rules p c).1 = true) : matchPartialChar rules p partialUtf8 = true := by
  obtain ⟨hremain, hlow, hhigh, hsmallest⟩ := hc
  -- an element that begins like this is not written with more bytes than it needs
  have hproper : ¬ (partialUtf8.nRemain < 0 ∨
      (partialUtf8.nRemain = 1 ∧ partialUtf8.value < 2)) := by
    rintro (hneg | ⟨hone, hvalue⟩)
    · omega
    · rw [hone] at hhigh hsmallest
      have hc : 0x80 ≤ c := hsmallest
      simp only [Int.toNat_one, pow_one] at hhigh
      omega
  have hbounds : (partialBounds partialUtf8).1 ≤ c ∧ c ≤ (partialBounds partialUtf8).2 := by
    unfold partialBounds
    dsimp only
    have hsize : 0 < 64 ^ partialUtf8.nRemain.toNat := Nat.pow_pos (by omega)
    rw [Nat.add_mul, Nat.one_mul] at hhigh
    constructor
    · split
      · refine Nat.le_trans ?_ hsmallest
        unfold smallestCode
        split
        · rename_i hone
          simp [minCode, hone]
        · exact Nat.le_refl _
      · exact hlow
    · omega
  unfold matchPartialChar
  rw [if_neg hproper]
  simp only [matchChar, hpositive, beq_true] at hmatch ⊢
  rw [List.any_eq_true] at hmatch ⊢
  obtain ⟨range, hrange, hholds⟩ := hmatch
  refine ⟨range, hrange, ?_⟩
  cases range with
  | any => rfl
  | range first last =>
    simp only [CharRange.holds, Bool.and_eq_true, decide_eq_true_eq] at hholds
    simp only [CharRange.meets, Bool.and_eq_true, decide_eq_true_eq]
    omega

/-- On top of a stack that came out, what is no token is a character element. -/
theorem Ready.char_cases {p : Pos} {rest : Stack} (h : Ready rules (p :: rest))
    (hchar : isTokenElement (elementAt rules p) = false) :
    isPositiveChar (elementAt rules p) = true ∨ (elementAt rules p).type = .charNot := by
  have hp := h.valid p List.mem_cons_self
  rcases visitStack_cases rest hp with ⟨-, hnext⟩ | ⟨href, -⟩
  · rw [h.leaf] at hnext
    cases hnext
  · obtain ⟨hend, halt, hupper, hpart⟩ := hp
    unfold isTokenElement at hchar
    unfold isPositiveChar
    simp only [Bool.or_eq_false_iff, decide_eq_false_iff_not] at hchar
    simp only [Bool.or_eq_true, decide_eq_true_eq]
    cases htype : (elementAt rules p).type with
    | char => exact .inl (.inl rfl)
    | charAny => exact .inl (.inr rfl)
    | charNot => exact .inr rfl
    | ruleRef => exact absurd htype href
    | «end» => exact absurd htype hend
    | alt => exact absurd htype halt
    | charRngUpper => exact absurd htype hupper
    | charAlt => exact absurd htype hpart
    | token => exact absurd htype hchar.1
    | tokenNot => exact absurd htype hchar.2

theorem charTop_of_walk {c : Nat} {cs : List Nat} {s t : Stack}
    (h : Walk rules (c :: cs) s t) : CharTop rules s := by
  obtain ⟨s', ⟨p, rest, heq, hchar, -⟩, -⟩ := h
  exact ⟨p, rest, heq, hchar⟩

section

variable {grammar : LlamaGrammar} {vocab : Vocab} {id : Nat} (hreg : Regular grammar.rules)
  (hready : ∀ s ∈ grammar.grammarStacks, Ready grammar.rules s)

include hready

theorem exists_tokenStep (hreg : Regular grammar.rules) {s : Stack} (hs : s ∈ grammar.grammarStacks)
    (htop : TokenTop grammar.rules id s) : ∃ t, TokenStep grammar.rules id s t := by
  obtain ⟨p, rest, rfl, htoken, hmatch⟩ := htop
  obtain ⟨t, ht⟩ := exists_leads hreg ((hready _ hs).behind_token hreg htoken)
  exact ⟨t, p, rest, rfl, htoken, hmatch, ht⟩

include hreg

/-- What is let through is taken, where no token element stands in the middle of the piece. -/
theorem taken_of_letThrough (hnil : pieceCodePoints grammar vocab id = [] →
      (piecePartial grammar vocab id).nRemain ≠ 0)
    (hharmless : Harmless grammar vocab id) (heog : vocab.isEog id = false)
    (h : LetThrough grammar vocab id) : ∃ t, Taken grammar vocab id t := by
  obtain ⟨s, hs, hadmits⟩ := h
  obtain ⟨first, last, t, hcs, hwalk, hend⟩ := admits_iff.mp hadmits
  cases first with
  | nil =>
    have hst : s = t := hwalk
    rcases hend with ⟨hlast, hcut⟩ | ⟨-, htop⟩
    · -- nothing but a part of a character
      rw [hlast] at hcs
      rcases hcut with hzero | ⟨p, rest, heq, hchar, -⟩
      · exact absurd hzero (hnil hcs)
      · refine ⟨t, s, hs, .inr ⟨⟨p, rest, hst.trans heq, hchar⟩, ?_⟩⟩
        rw [hcs]
        exact hwalk
    · obtain ⟨t', ht'⟩ := exists_tokenStep hready hreg hs (hst ▸ htop)
      exact ⟨t', s, hs, .inl ht'⟩
  | cons c first =>
    rcases hend with ⟨hlast, -⟩ | ⟨hlast, htop⟩
    · rw [hlast, List.append_nil] at hcs
      refine ⟨t, s, hs, .inr ⟨charTop_of_walk hwalk, ?_⟩⟩
      rw [hcs]
      exact hwalk
    · exact hharmless.whole heog s hs _ _ t hcs (List.cons_ne_nil c first) hlast hwalk htop

/-- A token that leads to a stack that can go on is let through, where the piece ends well. -/
theorem letThrough_of_taken (hnil : pieceCodePoints grammar vocab id = [] →
      (piecePartial grammar vocab id).nRemain ≠ 0)
    (hharmless : Harmless grammar vocab id) (heog : vocab.isEog id = false) {t : Stack}
    (htaken : Taken grammar vocab id t)
    (hcontinue : CanContinue grammar.rules (piecePartial grammar vocab id) t) :
    LetThrough grammar vocab id := by
  obtain ⟨s, hs, htakes⟩ := htaken
  rcases htakes with hstep | ⟨htop, hwalk⟩
  · by_cases hcs : pieceCodePoints grammar vocab id = []
    · rcases hcontinue with hzero | hcompletes
      · exact absurd hzero (hnil hcs)
      · exact hharmless.begun heog hcs s hs t hstep hcompletes
    · obtain ⟨p, rest, rfl, htoken, hmatch, -⟩ := hstep
      exact ⟨_, hs, admits_iff.mpr ⟨[], _, _, rfl, rfl,
        .inr ⟨hcs, p, rest, rfl, htoken, hmatch⟩⟩⟩
  · have hadmits : AdmitsPartial grammar.rules (piecePartial grammar vocab id) t →
        LetThrough grammar vocab id := fun h =>
      ⟨s, hs, admits_iff.mpr ⟨_, [], t, (List.append_nil _).symm, hwalk, .inl ⟨rfl, h⟩⟩⟩
    rcases hcontinue with hzero | hcompletes
    · exact hadmits (.inl hzero)
    · obtain ⟨p, rest, c, rfl, hchar, hc, hmatch⟩ := hcompletes
      by_cases hcut : matchPartialChar grammar.rules p (piecePartial grammar vocab id) = true
      · exact hadmits (.inr ⟨p, rest, rfl, hchar, hcut⟩)
      · -- only a negated element can reject a completion that it matches
        have hnot : (elementAt grammar.rules p).type = .charNot :=
          ((hwalk.ready hreg (hready s hs)).char_cases hchar).resolve_left fun hpositive =>
            hcut (matchPartialChar_of_positive hpositive hc hmatch)
        exact hharmless.negated heog s hs p rest htop hwalk hnot (by simpa using hcut)
          ⟨p, rest, c, rfl, hchar, hc, hmatch⟩

end

/-- The mask and `acceptToken` return, and they agree on a token exactly where it is harmless. -/
theorem maskAgrees_iff (hreg : Regular rules) {start : Nat} {vocab : Vocab}
    {grammar : LlamaGrammar} (hreach : Reachable rules start vocab grammar)
    {candidates : List Nat} {i id : Nat} (hid : candidates[i]? = some id)
    (hpiece : vocab.tokenToPiece id ≠ []) (hfirst : (vocab.tokenToPiece id).head? ≠ some 0)
    (hzero : 0 ∉ pieceCodePoints grammar vocab id) :
    ∃ masked accepted, Settles (fun n => sampleImpl n grammar vocab candidates) masked ∧
      Settles (fun n => acceptToken n grammar id (vocab.tokenToPiece id)) accepted ∧
      (Agrees vocab id masked[i]? accepted ↔ Harmless grammar vocab id) := by
  obtain ⟨hrules, hne, hready⟩ := hreach.ready hreg
  subst hrules
  obtain ⟨masked, hmasked, hmask⟩ := @sampleImpl_settles _ hreg grammar vocab rfl hne hready candidates
  obtain ⟨accepted, hrules', hcut, htaken, haccepted⟩ :=
    @acceptToken_settles _ hreg grammar rfl hready id (vocab.tokenToPiece id)
  refine ⟨masked, accepted, hmasked, haccepted, ?_⟩
  have hmask := hmask i id hid hpiece hfirst hzero
  have hnil : pieceCodePoints grammar vocab id = [] →
      (piecePartial grammar vocab id).nRemain ≠ 0 := decodeUtf8_nil hpiece hfirst
  have htaken : ∀ t, t ∈ accepted.grammarStacks ↔ Taken grammar vocab id t := htaken
  have hcut : accepted.partialUtf8 = piecePartial grammar vocab id := hcut
  constructor
  · intro hagrees
    have hleaves : ∀ t, Taken grammar vocab id t →
        CanContinue grammar.rules (piecePartial grammar vocab id) t → masked[i]? = some false := by
      intro t ht hcontinue
      refine hagrees.leaves ⟨t, (htaken t).mpr ht, ?_⟩
      rw [hrules', hcut]
      exact hcontinue
    have hlet : vocab.isEog id = false → (masked[i]? = some false ↔ LetThrough grammar vocab id) := by
      intro heog
      rw [hmask, if_neg (by simp [heog])]
    refine ⟨?_, ?_, ?_, ?_⟩
    · intro heog s hs first last t hcs _ hlast hwalk htop
      have hthrough : LetThrough grammar vocab id :=
        ⟨s, hs, admits_iff.mpr ⟨first, last, t, hcs, hwalk, .inr ⟨hlast, htop⟩⟩⟩
      obtain ⟨t', ht'⟩ := List.exists_mem_of_ne_nil _
        (hagrees.accepts heog ((hlet heog).mpr hthrough))
      exact ⟨t', (htaken t').mp ht'⟩
    · intro heog s hs p rest htop hwalk _ _ hcompletes
      exact (hlet heog).mp (hleaves _ ⟨s, hs, .inr ⟨htop, hwalk⟩⟩ (.inr hcompletes))
    · intro heog _ s hs t hstep hcompletes
      exact (hlet heog).mp (hleaves t ⟨s, hs, .inl hstep⟩ (.inr hcompletes))
    · intro heog t ht hcontinue
      have hfalse := hleaves t ht hcontinue
      rwa [hmask, if_pos heog] at hfalse
  · intro hharmless
    constructor
    · intro heog hfalse
      rw [hmask, if_neg (by simp [heog])] at hfalse
      obtain ⟨t, ht⟩ := taken_of_letThrough hreg hready hnil hharmless heog hfalse
      exact List.ne_nil_of_mem ((htaken t).mpr ht)
    · rintro ⟨t, ht, hcontinue⟩
      rw [hrules', hcut] at hcontinue
      rw [hmask]
      by_cases heog : vocab.isEog id = true
      · rw [if_pos heog]
        exact hharmless.eog heog t ((htaken t).mp ht) hcontinue
      · rw [if_neg heog]
        exact letThrough_of_taken hreg hready hnil hharmless (by simpa using heog)
          ((htaken t).mp ht) hcontinue

/-! ### A token element in the middle of a piece -/

/-- `root ::= "a" <[5]>`. -/
def splitRules : Rules := [[⟨.char, 97⟩, ⟨.token, 5⟩, ⟨.end, 0⟩]]

theorem splitRules_regular : Regular splitRules := by
  refine ⟨wellFormed_of_dropLast (by decide) (by decide) (by decide), fun r => ?_⟩
  refine not_leftRecursive_of_terminals (fun A α hα => ?_) r
  have hcases : ∀ r, ∀ α ∈ productions splitRules r, α.head? = some (.terminal ()) := by decide
  obtain ⟨δ, rfl⟩ := List.head?_eq_some_iff.mp (hcases A α hα)
  exact ⟨(), δ, rfl⟩

/-- The token 5 is "ab", and every other one is "a". -/
def splitVocab : Vocab where
  isEog := fun _ => false
  tokenToPiece := fun id => if id = 5 then [97, 98] else [97]

def splitGrammar : LlamaGrammar where
  rules := splitRules
  grammarStacks := [[⟨0, 0⟩]]

theorem splitGrammar_reachable : Reachable splitRules 0 splitVocab splitGrammar := by
  have hinit : initialStacks splitRules 2 0 = some [[⟨0, 0⟩]] := by decide
  exact .init hinit

/-- The token "a" is harmless. -/
theorem splitGrammar_agrees :
    ∃ masked accepted, Settles (fun n => sampleImpl n splitGrammar splitVocab [5, 6]) masked ∧
      Settles (fun n => acceptToken n splitGrammar 6 (splitVocab.tokenToPiece 6)) accepted ∧
      Agrees splitVocab 6 masked[1]? accepted := by
  have hpiece : pieceCodePoints splitGrammar splitVocab 6 = [97] := by decide
  have hcut : (piecePartial splitGrammar splitVocab 6).nRemain = 0 := by decide
  have hcompletes : ∀ s, ¬ Completes splitGrammar.rules (piecePartial splitGrammar splitVocab 6) s := by
    rintro s ⟨_, _, _, -, -, ⟨hremain, -⟩, -⟩
    omega
  obtain ⟨masked, accepted, hmasked, haccepted, hagrees⟩ := maskAgrees_iff splitRules_regular
    splitGrammar_reachable (show [5, 6][1]? = some 6 from rfl) (by decide) (by decide)
    (by rw [hpiece]; decide)
  refine ⟨masked, accepted, hmasked, haccepted, hagrees.mpr ⟨?_, ?_, ?_, ?_⟩⟩
  · intro _ s _ first last t hcs hfirst hlast
    have hlen := congrArg List.length hcs
    rw [hpiece, List.length_append] at hlen
    have hf := List.length_pos_iff.mpr hfirst
    have hl := List.length_pos_iff.mpr hlast
    simp only [List.length_cons, List.length_nil] at hlen
    omega
  · intro _ s _ p rest _ _ _ _ h
    exact absurd h (hcompletes _)
  · intro _ hnil
    rw [hpiece] at hnil
    cases hnil
  · intro heog
    cases heog

/-- The token "ab" is left unmasked, and accepting it leaves no stack. -/
theorem token_inside_piece :
    Regular splitRules ∧ Reachable splitRules 0 splitVocab splitGrammar ∧
      ∃ masked accepted, sampleImpl 4 splitGrammar splitVocab [5, 6] = some masked ∧
        acceptToken 4 splitGrammar 5 (splitVocab.tokenToPiece 5) = some accepted ∧
        ¬ Agrees splitVocab 5 masked[0]? accepted := by
  refine ⟨splitRules_regular, splitGrammar_reachable, [false, false],
    { splitGrammar with grammarStacks := [], partialUtf8 := ⟨98, 0⟩ }, by decide, rfl, fun h => ?_⟩
  exact h.accepts rfl rfl rfl

end PxqLlama.Grammar
