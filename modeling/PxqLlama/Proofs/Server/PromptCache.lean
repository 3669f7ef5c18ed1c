import PxqLlama.Server.PromptCache

/-!
# `Proofs.Server.PromptCache`: a lookup in the prompt cache

`load_cases` gives the three outcomes of `ServerPromptCache.load`: nothing better is found, the
state of the best prompt is refused, or that prompt is restored. In each of them every other
prompt is what the comparison left of it (`leave`): itself where the thinking parts are left out,
and a prompt with no tokens otherwise. So a lookup loses nothing exactly when it compares copies,
or when there was no token to lose (`loadRight_iff`).
-/

namespace PxqLlama.Server

/-! ### An empty list -/

/-- No token and no chunk. -/
def ServerTokens.IsBare (s : ServerTokens) : Prop := s.movedFrom = s

instance (s : ServerTokens) : Decidable s.IsBare :=
  inferInstanceAs (Decidable (s.movedFrom = s))

theorem ServerTokens.IsBare.tokens_eq {s : ServerTokens} (h : s.IsBare) : s.tokens = [] := by
  rw [← h]
  rfl

theorem findCommonTextTokenPrefix_nil (txt : TokenText) (b : List Int) (exact : Bool) :
    findCommonTextTokenPrefix txt [] b 0 exact = {} := by
  simp [findCommonTextTokenPrefix]

theorem getCommonPrefixExact_nil {a : ServerTokens} (b : ServerTokens) (ha : a.tokens = []) :
    a.getCommonPrefixExact b = some 0 := by
  unfold ServerTokens.getCommonPrefixExact
  have hmax : min a.size b.size = 0 := by simp [ServerTokens.size, ha]
  split
  · rw [hmax]
    rfl
  · simp [ha]

/-- An empty list has nothing in common with any other. -/
theorem getCommonPrefix_nil (txt : TokenText) {a : ServerTokens} (b : ServerTokens) (exact : Bool)
    (ha : a.tokens = []) : a.getCommonPrefix txt b exact = some {} := by
  have hsize : a.size = 0 := by simp [ServerTokens.size, ha]
  unfold ServerTokens.getCommonPrefix
  rw [getCommonPrefixExact_nil b ha]
  show (if a.hasMtmd then _ else _) = _
  split
  · -- the loop over media ends before its first round
    cases b.size <;>
      simp [hsize, ServerTokens.commonPrefixMedia, findCommonTextTokenPrefix_nil, commonPrefixAdd]
  · simp [ha, findCommonTextTokenPrefix_nil, commonPrefixAdd]

variable {think : ThinkingTokens}

section Load

variable {F : Type} (fl : FloatOps F) (txt : TokenText)

/-! ### Similarity -/

/-- A similarity is a quotient of counts, with the common part as its numerator. -/
theorem getTokensSimilarity_quot {self tokens : ServerTokens} {nKeep nDiscard : Int} {sim : F}
    (h : getTokensSimilarity fl txt self tokens nKeep nDiscard = some sim) :
    ∃ (lcp : CommonPrefix) (other : ServerTokens) (n : Nat),
      self.getCommonPrefix txt other false = some lcp ∧ sim = fl.quot (lcp.second * 2) n := by
  unfold getTokensSimilarity at h
  split at h
  · cases h
  · split at h
    · obtain ⟨lcp, hlcp, heq⟩ := Option.bind_eq_some_iff.mp h
      exact ⟨lcp, tokens, _, hlcp, (Option.some.inj heq).symm⟩
    · obtain ⟨shifted, -, hrest⟩ := Option.bind_eq_some_iff.mp h
      obtain ⟨lcp, hlcp, heq⟩ := Option.bind_eq_some_iff.mp hrest
      exact ⟨lcp, shifted, _, hlcp, (Option.some.inj heq).symm⟩

/-- An empty list is never more similar than another one. -/
theorem not_lt_similarity_nil {self tokens self' tokens' : ServerTokens}
    {nKeep nDiscard nKeep' nDiscard' : Int} {best sim : F} (hself : self.tokens = [])
    (hbest : getTokensSimilarity fl txt self' tokens' nKeep' nDiscard' = some best)
    (hsim : getTokensSimilarity fl txt self tokens nKeep nDiscard = some sim) :
    fl.lt best sim = false := by
  obtain ⟨lcp, other, n, hlcp, rfl⟩ := getTokensSimilarity_quot fl txt hsim
  obtain ⟨lcp', -, n', -, rfl⟩ := getTokensSimilarity_quot fl txt hbest
  rw [getCommonPrefix_nil txt other false hself] at hlcp
  cases hlcp
  exact fl.not_lt_zero _ _ _

/-! ### What the comparison leaves -/

/-- What is left of a prompt after it was compared. -/
def leave (think : ThinkingTokens) (e : ServerPrompt) : ServerPrompt :=
  if think.exclude then e else { e with tokens := e.tokens.movedFrom }

theorem leave_of_exclude (h : think.exclude = true) (e : ServerPrompt) : leave think e = e := by
  simp [leave, h]

theorem leave_of_move (h : think.exclude = false) (e : ServerPrompt) :
    leave think e = { e with tokens := e.tokens.movedFrom } := by
  simp [leave, h]

/-- Where lists are moved, a prompt is unharmed exactly if it had no tokens. -/
theorem leave_eq_self_iff (h : think.exclude = false) (e : ServerPrompt) :
    leave think e = e ↔ e.tokens.IsBare := by
  rw [leave_of_move h]
  constructor
  · intro heq
    exact congrArg ServerPrompt.tokens heq
  · intro hbare
    show ({ e with tokens := e.tokens.movedFrom } : ServerPrompt) = e
    rw [hbare]

theorem takeTokens_left {tokens copy left : ServerTokens}
    (h : takeTokens txt think tokens = some (copy, left)) (e : ServerPrompt)
    (he : e.tokens = tokens) : { e with tokens := left } = leave think e := by
  unfold takeTokens at h
  split at h
  · obtain ⟨c, -, heq⟩ := Option.map_eq_some_iff.mp h
    cases heq
    rw [leave_of_exclude ‹_›, ← he]
  · cases h
    rw [leave_of_move (by simpa using ‹¬ think.exclude = true›), he]

/-- Every cached prompt is left behind, and the best one is the one so far or one of these. -/
theorem searchStates_cases {tokensNew : ServerTokens} {minFraction : F}
    {states left : List ServerPrompt} {i : Nat} {simBest : F} {itBest best : Option Nat}
    (h : searchStates fl txt think tokensNew minFraction states i simBest itBest = some (left, best)) :
    left = states.map (leave think) ∧
      (best = itBest ∨ ∃ k, best = some k ∧ i ≤ k ∧ k < i + states.length) := by
  induction states generalizing i simBest itBest left best with
  | nil =>
    cases h
    exact ⟨rfl, .inl rfl⟩
  | cons it states ih =>
    unfold searchStates at h
    obtain ⟨⟨tokens, rest⟩, htake, h⟩ := Option.bind_eq_some_iff.mp h
    obtain ⟨lcp, -, h⟩ := Option.bind_eq_some_iff.mp h
    have hleft := takeTokens_left txt htake it rfl
    simp only at h hleft
    split at h
    · -- too little of it can be used
      obtain ⟨⟨l, b⟩, hrec, heq⟩ := Option.bind_eq_some_iff.mp h
      cases heq
      obtain ⟨rfl, hbest⟩ := ih hrec
      refine ⟨by rw [hleft]; rfl, ?_⟩
      rcases hbest with hbest | ⟨k, hk, hle, hlt⟩
      · exact .inl hbest
      · exact .inr ⟨k, hk, by omega, by simp only [List.length_cons]; omega⟩
    · obtain ⟨sim, -, h⟩ := Option.bind_eq_some_iff.mp h
      obtain ⟨⟨l, b⟩, hrec, heq⟩ := Option.bind_eq_some_iff.mp h
      cases heq
      obtain ⟨rfl, hbest⟩ := ih hrec
      refine ⟨by rw [hleft]; rfl, ?_⟩
      rcases hbest with hbest | ⟨k, hk, hle, hlt⟩
      · -- it is the best one itself, or the one before stays
        split at hbest
        · exact .inr ⟨i, hbest, Nat.le_refl i, by simp⟩
        · exact .inl hbest
      · exact .inr ⟨k, hk, by omega, by simp only [List.length_cons]; omega⟩

/-- Among prompts with no tokens none is better than the one at hand. -/
theorem searchStates_bare {tokensNew self' tokens' : ServerTokens} {minFraction : F}
    {states left : List ServerPrompt} {i : Nat} {simBest : F} {nKeep' nDiscard' : Int}
    {best : Option Nat} (hthink : think.exclude = false) (hbare : ∀ e ∈ states, e.tokens.IsBare)
    (hbest : getTokensSimilarity fl txt self' tokens' nKeep' nDiscard' = some simBest)
    (h : searchStates fl txt think tokensNew minFraction states i simBest none = some (left, best)) :
    best = none := by
  induction states generalizing i left best with
  | nil => cases h; rfl
  | cons it states ih =>
    unfold searchStates at h
    have htail : ∀ e ∈ states, e.tokens.IsBare := fun e he => hbare e (List.mem_cons_of_mem _ he)
    have hnil : it.tokens.tokens = [] := (hbare it List.mem_cons_self).tokens_eq
    rw [show takeTokens txt think it.tokens = some (it.tokens, it.tokens.movedFrom) by
      simp [takeTokens, hthink], Option.bind_eq_bind, Option.bind_some] at h
    simp only at h
    obtain ⟨lcp, -, h⟩ := Option.bind_eq_some_iff.mp h
    split at h
    · obtain ⟨⟨l, b⟩, hrec, heq⟩ := Option.bind_eq_some_iff.mp h
      cases heq
      exact ih htail hrec
    · obtain ⟨sim, hsim, h⟩ := Option.bind_eq_some_iff.mp h
      rw [not_lt_similarity_nil fl txt hnil hbest hsim] at h
      obtain ⟨⟨l, b⟩, hrec, heq⟩ := Option.bind_eq_some_iff.mp h
      cases heq
      exact ih htail hrec

/-! ### Outcomes -/

variable {setData : Bytes → Nat} {minFraction : F} {states states' : List ServerPrompt}
  {prompt prompt' : ServerPrompt} {tokensNew : ServerTokens} {ok : Bool}

/-- A lookup finds nothing better or is refused, and then all prompts are left behind; or it
restores the prompt at one place. -/
theorem load_cases
    (h : ServerPromptCache.load fl txt setData minFraction states prompt tokensNew
      = some (ok, prompt', states')) :
    (prompt' = leave (firstThinkTokens states) prompt ∧
      states' = states.map (leave (firstThinkTokens states))) ∨
    ∃ k e, states[k]? = some e ∧ ok = true ∧
      prompt' = { leave (firstThinkTokens states) e with data := [] } ∧
      states' = (states.map (leave (firstThinkTokens states))).eraseIdx k ∧
      ¬ ((firstThinkTokens states).exclude = false ∧ ∀ e ∈ states, e.tokens.IsBare) := by
  unfold ServerPromptCache.load at h
  obtain ⟨⟨tokens, left⟩, htake, h⟩ := Option.bind_eq_some_iff.mp h
  have hprompt := takeTokens_left txt htake prompt rfl
  simp only at h hprompt
  rw [hprompt] at h
  obtain ⟨tokensNewEx, -, h⟩ := Option.bind_eq_some_iff.mp h
  obtain ⟨-, -, h⟩ := Option.bind_eq_some_iff.mp h
  obtain ⟨simBest, hsim, h⟩ := Option.bind_eq_some_iff.mp h
  obtain ⟨⟨l, best⟩, hsearch, h⟩ := Option.bind_eq_some_iff.mp h
  obtain ⟨rfl, hbest⟩ := searchStates_cases fl txt hsearch
  rcases hbest with rfl | ⟨k, rfl, -, hk⟩
  · cases h
    exact .inl ⟨rfl, rfl⟩
  · have hk : k < states.length := by omega
    have hget : states[k]? = some states[k] := List.getElem?_eq_getElem hk
    simp only [List.getElem?_map, hget, Option.map_some] at h
    split at h
    · cases h
      exact .inl ⟨rfl, rfl⟩
    · cases h
      refine .inr ⟨k, states[k], hget, rfl, rfl, rfl, ?_⟩
      rintro ⟨hthink, hbare⟩
      cases searchStates_bare fl txt hthink hbare hsim hsearch

end Load

/-- What a lookup should do: it restores one cached prompt, which leaves the list, or it leaves
the slot's prompt as it is; the other cached prompts stay. -/
def LoadRight (states : List ServerPrompt) (prompt : ServerPrompt)
    (result : Bool × ServerPrompt × List ServerPrompt) : Prop :=
  (∃ before e after, states = before ++ e :: after ∧ result.2.2 = before ++ after ∧
    result.1 = true ∧ result.2.1.tokens = e.tokens ∧ result.2.1.checkpoints = e.checkpoints) ∨
  (result.2.1 = prompt ∧ result.2.2 = states)

theorem map_leave_eq_iff (h : think.exclude = false) (states : List ServerPrompt) :
    states.map (leave think) = states ↔ ∀ e ∈ states, e.tokens.IsBare := by
  have hself : states.map (leave think) = states ↔ ∀ e ∈ states, leave think e = e := by
    constructor
    · intro heq
      exact List.map_inj_left.mp (heq.trans (List.map_id states).symm)
    · intro hall
      exact (List.map_congr_left hall).trans (List.map_id states)
  rw [hself]
  exact forall₂_congr fun e _ => leave_eq_self_iff h e

/-- A lookup loses nothing exactly when the first cached prompt asks for the thinking parts to be
left out, so that copies are compared, when nothing is cached, or when neither the slot's prompt
nor a cached one has a token. -/
theorem loadRight_iff {F : Type} (fl : FloatOps F) (txt : TokenText) (setData : Bytes → Nat)
    (minFraction : F) (states : List ServerPrompt) (prompt : ServerPrompt)
    (tokensNew : ServerTokens) (result : Bool × ServerPrompt × List ServerPrompt)
    (h : ServerPromptCache.load fl txt setData minFraction states prompt tokensNew = some result) :
    LoadRight states prompt result ↔
      (firstThinkTokens states).exclude = true ∨
        prompt.tokens.IsBare ∧ ∀ e ∈ states, e.tokens.IsBare := by
  obtain ⟨ok, prompt', states'⟩ := result
  cases hthink : (firstThinkTokens states).exclude with
  | true =>
    have hmap : states.map (leave (firstThinkTokens states)) = states :=
      (List.map_congr_left fun e _ => leave_of_exclude hthink e).trans (List.map_id states)
    simp only [true_or, iff_true]
    rcases load_cases fl txt h with ⟨rfl, rfl⟩ | ⟨k, e, hk, rfl, rfl, rfl, -⟩
    · exact .inr ⟨leave_of_exclude hthink prompt, hmap⟩
    · obtain ⟨hlt, rfl⟩ := List.getElem?_eq_some_iff.mp hk
      rw [hmap, leave_of_exclude hthink]
      refine .inl ⟨states.take k, states[k], states.drop (k + 1), ?_, ?_, rfl, rfl, rfl⟩
      · rw [← List.drop_eq_getElem_cons hlt, List.take_append_drop]
      · exact List.eraseIdx_eq_take_drop_succ states k
  | false =>
    simp only [Bool.false_eq_true, false_or]
    rcases load_cases fl txt h with ⟨rfl, rfl⟩ | ⟨k, e, hk, rfl, rfl, rfl, hnot⟩
    · -- nothing was restored: both disjuncts compare the lists as a whole
      rw [← leave_eq_self_iff hthink, ← map_leave_eq_iff hthink]
      constructor
      · rintro (⟨before, e, after, hstates, hres, -⟩ | heq)
        · have hlen := congrArg List.length hres
          simp [hstates] at hlen
        · exact heq
      · exact .inr
    · -- a prompt was restored without its tokens
      obtain ⟨hlt, rfl⟩ := List.getElem?_eq_some_iff.mp hk
      have hlen : ((states.map (leave (firstThinkTokens states))).eraseIdx k).length + 1
          = states.length := by
        rw [List.length_eraseIdx_of_lt (by simpa using hlt), List.length_map]
        omega
      refine ⟨?_, fun hbare => absurd ⟨hthink, hbare.2⟩ hnot⟩
      rintro (⟨before, e, after, hstates, hres, -, htokens, -⟩ | ⟨-, heq⟩)
      · refine absurd ⟨hthink, fun x hx => ?_⟩ hnot
        -- every prompt that is left has no tokens, and the restored one neither
        have hleft : ∀ x ∈ before ++ after, x.tokens.IsBare := by
          intro x hx
          rw [← show _ = before ++ after from hres] at hx
          obtain ⟨y, -, rfl⟩ := List.mem_map.mp (List.mem_of_mem_eraseIdx hx)
          rw [leave_of_move hthink]
          rfl
        have he : e.tokens.IsBare := by
          rw [← htokens, leave_of_move hthink]
          rfl
        rw [hstates] at hx
        rcases List.mem_append.mp hx with hx | hx
        · exact hleft x (List.mem_append_left _ hx)
        · rcases List.mem_cons.mp hx with rfl | hx
          · exact he
          · exact hleft x (List.mem_append_right _ hx)
      · have hsame := congrArg List.length (show (states.map _).eraseIdx k = states from heq)
        rw [hsame] at hlen
        omega

/-! ### Runs -/

/-- Pieces of one byte. -/
def byteText : TokenText where
  piece t := [UInt8.ofNat t.toNat]
  detokenize ts := ts.map fun t => UInt8.ofNat t.toNat

/-- A prompt that holds these tokens and nothing else. -/
def promptOf (exclude : Bool) (tokens : List Int) : ServerPrompt where
  tokens := { tokens := tokens }
  nKeptPrompt := 0
  nDiscardedPrompt := 0
  thinkTokens := { exclude := exclude }
  data := [7]
  checkpoints := []

/-- With copies, the prompt that shares three tokens with the new one is restored whole. -/
theorem loadRight_copies :
    LoadRight [promptOf true [5, 6], promptOf true [1, 2, 3]] (promptOf true [9])
      (true, { promptOf true [1, 2, 3] with data := [] }, [promptOf true [5, 6]]) :=
  (loadRight_iff FloatOps.fractions byteText List.length (1, 2)
    [promptOf true [5, 6], promptOf true [1, 2, 3]] (promptOf true [9])
    { tokens := [1, 2, 3, 4] } _ (by decide +kernel)).mpr (.inl rfl)

/-- With lists moved out, a lookup that restores nothing empties the slot's prompt and the cached
one. -/
theorem load_move_empties :
    ServerPromptCache.load FloatOps.fractions byteText List.length (1, 2)
        [promptOf false [5, 6]] (promptOf false [1, 2]) { tokens := [1, 2, 3] }
      = some (true, promptOf false [], [promptOf false []]) ∧
    ¬ LoadRight [promptOf false [5, 6]] (promptOf false [1, 2])
      (true, promptOf false [], [promptOf false []]) := by
  refine ⟨by decide +kernel, ?_⟩
  rintro (⟨before, e, after, hstates, hres, -⟩ | ⟨heq, -⟩)
  · have hlen := congrArg List.length hres
    have hlen' := congrArg List.length hstates
    simp only [List.length_append, List.length_cons, List.length_nil] at hlen hlen'
    omega
  · cases heq

end PxqLlama.Server
