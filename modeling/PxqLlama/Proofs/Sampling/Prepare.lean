import PxqLlama.Sampling.Chain

/-!
# `Proofs.Sampling.Prepare`: the logits of the candidates

`prepare` makes one candidate for each token, in the order of the tokens. `prepare_eq` gives its
logit: with the biases, with the penalty where the token is among the last ones, and for the newline
the logit of the row.
-/

namespace PxqLlama.Sampling

variable {α : Type}

/-! ### Counts -/

/-- The table of counts has each token of the window once, with its count. -/
theorem find?_tokenCount (tokens : List LlamaToken) (token : LlamaToken) :
    ((tokenCount tokens).find? fun kv => kv.1 = token) =
      if token ∈ tokens then some (token, tokens.count token) else none := by
  rw [tokenCount, List.find?_map]
  by_cases hmem : token ∈ tokens
  · rw [if_pos hmem]
    have hdedup : token ∈ tokens.dedup := List.mem_dedup.2 hmem
    cases hfind : tokens.dedup.find? ((fun kv => decide (kv.1 = token)) ∘
        fun t => (t, tokens.count t)) with
    | none =>
      have hself := List.find?_eq_none.1 hfind token hdedup
      exact absurd (decide_eq_true (rfl : token = token)) hself
    | some t =>
      have ht : t = token := by simpa using List.find?_some hfind
      rw [ht]
      rfl
  · rw [if_neg hmem, Option.map_eq_none_iff, List.find?_eq_none]
    intro t ht heq
    have : t = token := by simpa using heq
    exact hmem (this ▸ List.mem_dedup.1 ht)

theorem nodup_tokenCount (tokens : List LlamaToken) : ((tokenCount tokens).map Prod.fst).Nodup := by
  have hid : (tokenCount tokens).map Prod.fst = tokens.dedup := by
    rw [tokenCount, List.map_map]
    exact List.map_id _
  rw [hid]
  exact List.nodup_dedup _

/-! ### The newline -/

theorem restoreNl_of_forall {nlToken : LlamaToken} {v : α} {data : List (TokenData α)}
    (h : ∀ d ∈ data, d.id ≠ nlToken) : restoreNl nlToken v data = data := by
  induction data with
  | nil => rfl
  | cons d ds ih =>
    rw [restoreNl, if_neg (h d List.mem_cons_self), ih fun d' hd' => h d' (List.mem_cons_of_mem _ hd')]

/-- Where the tokens differ all candidates of the newline are one. -/
theorem restoreNl_eq_map {nlToken : LlamaToken} {v : α} {data : List (TokenData α)}
    (hnodup : (data.map TokenData.id).Nodup) : restoreNl nlToken v data =
      data.map fun d => if d.id = nlToken then { d with logit := v } else d := by
  induction data with
  | nil => rfl
  | cons d ds ih =>
    rw [List.map_cons, List.nodup_cons] at hnodup
    rw [restoreNl, List.map_cons]
    by_cases hd : d.id = nlToken
    · have hothers : ∀ d' ∈ ds, d'.id ≠ nlToken := fun d' hd' heq =>
        hnodup.1 (List.mem_map.2 ⟨d', hd', by rw [heq, hd]⟩)
      rw [if_pos hd, if_pos hd, ← ih hnodup.2, restoreNl_of_forall hothers]
    · rw [if_neg hd, if_neg hd, ih hnodup.2]

variable [Field α]

/-- The candidates of all tokens in order. -/
def tokenRow (n : Nat) (logit : Nat → α) : List (TokenData α) :=
  (List.range n).map fun token : Nat => ⟨token, logit token, 0⟩

theorem getElem?_tokenRow (n : Nat) (logit : Nat → α) (i : Nat) :
    (tokenRow n logit)[i]? = if i < n then some ⟨i, logit i, 0⟩ else none := by
  rw [tokenRow, List.getElem?_map]
  by_cases hi : i < n
  · rw [if_pos hi, List.getElem?_range hi]
    rfl
  · rw [if_neg hi, List.getElem?_eq_none (by rw [List.length_range]; omega)]
    rfl

theorem restoreNl_tokenRow (nlToken : LlamaToken) (v : α) (n : Nat) (logit : Nat → α) :
    restoreNl nlToken v (tokenRow n logit) =
      tokenRow n fun i : Nat => if (i : Int) = nlToken then v else logit i := by
  have hids : (tokenRow n logit).map TokenData.id = (List.range n).map fun i : Nat => (i : Int) := by
    rw [tokenRow, List.map_map]
    rfl
  have hnodup : ((tokenRow n logit).map TokenData.id).Nodup := by
    rw [hids]
    exact List.nodup_range.map fun a b hab => Int.ofNat.inj hab
  rw [restoreNl_eq_map hnodup, tokenRow, tokenRow, List.map_map]
  refine List.map_congr_left fun i _ => ?_
  show (if (i : Int) = nlToken then _ else _) = _
  split <;> rfl

/-! ### Penalties -/

variable [LinearOrder α]

/-- Entries that are changed by index, each key once. -/
theorem getElem?_foldl_modify {β : Type} (f : Nat → β → β) {kvs : List (LlamaToken × Nat)}
    (hnodup : (kvs.map Prod.fst).Nodup) (hpos : ∀ kv ∈ kvs, 0 ≤ kv.1) (data : List β) (i : Nat) :
    (kvs.foldl (fun data kv => data.modify kv.1.toNat (f kv.2)) data)[i]? =
      match kvs.find? fun kv => kv.1 = (i : Int) with
      | none => data[i]?
      | some kv => data[i]?.map (f kv.2) := by
  induction kvs generalizing data with
  | nil => rfl
  | cons kv kvs ih =>
    rw [List.map_cons, List.nodup_cons] at hnodup
    rw [List.foldl_cons, ih hnodup.2 fun kv' hkv' => hpos kv' (List.mem_cons_of_mem _ hkv')]
    have hkv := hpos kv List.mem_cons_self
    rw [List.find?_cons, List.getElem?_modify]
    by_cases hi : kv.1 = i
    · -- the keys behind are others
      have hnone : (kvs.find? fun kv => kv.1 = (i : Int)) = none := by
        refine List.find?_eq_none.2 fun kv' hkv' heq => hnodup.1 ?_
        have : kv'.1 = i := by simpa using heq
        exact List.mem_map.2 ⟨kv', hkv', by rw [this, hi]⟩
      simp only [hnone, hi, decide_true, Int.toNat_natCast, if_true]
      rfl
    · have htoNat : kv.1.toNat ≠ i := fun heq => hi (by
        rw [← heq]
        exact (Int.toNat_of_nonneg hkv).symm)
      simp only [hi, decide_false, htoNat, if_false]
      cases kvs.find? fun kv => kv.1 = (i : Int) with
      | none => exact id_map _
      | some kv' =>
        show Option.map _ (id <$> data[i]?) = _
        rw [id_map]

/-- The logit of a token behind the penalties. -/
def penalizedLogit (r f p : α) (lastTokens : List LlamaToken) (token : LlamaToken) (logit : α) : α :=
  if token ∈ lastTokens then penalize r f p (lastTokens.count token) logit else logit

/-- By index or by a scan, each token among the last ones is penalised. -/
theorem sampleRepetitionPenalties_tokenRow {r f p : α} {tokens : List LlamaToken}
    (hne : tokens ≠ []) (hactive : ¬ (r = 1 ∧ f = 0 ∧ p = 0)) (n : Nat) (logit : Nat → α) :
    sampleRepetitionPenalties ⟨tokenRow n logit, 0, false⟩ tokens r f p =
      ⟨tokenRow n fun i : Nat => penalizedLogit r f p tokens i (logit i), 0, false⟩ := by
  have hentry : ∀ i : Nat, (tokenRow n fun i : Nat => penalizedLogit r f p tokens i (logit i))[i]? =
      match (tokenCount tokens).find? fun kv => kv.1 = (i : Int) with
      | none => (tokenRow n logit)[i]?
      | some kv => (tokenRow n logit)[i]?.map fun d =>
          { d with logit := penalize r f p kv.2 d.logit } := by
    intro i
    rw [find?_tokenCount, getElem?_tokenRow, getElem?_tokenRow]
    by_cases hmem : (i : Int) ∈ tokens
    · simp only [penalizedLogit, if_pos hmem]
      split <;> rfl
    · simp only [penalizedLogit, if_neg hmem]
  rw [sampleRepetitionPenalties, if_neg (not_or.2 ⟨hne, hactive⟩)]
  simp only [TokenDataArray.mk.injEq, and_true]
  split
  · rename_i hidentity
    refine List.ext_getElem? fun i => ?_
    rw [hentry, getElem?_foldl_modify (fun count (d : TokenData α) =>
      { d with logit := penalize r f p count d.logit }) (nodup_tokenCount tokens)]
    intro kv hkv
    have := List.all_eq_true.1 hidentity kv hkv
    simp only [decide_eq_true_eq] at this
    exact this.1
  · refine List.ext_getElem? fun i => ?_
    rw [hentry, List.getElem?_map, getElem?_tokenRow]
    by_cases hi : i < n
    · simp only [if_pos hi, Option.map_some]
      cases (tokenCount tokens).find? fun kv => kv.1 = (i : Int) <;> rfl
    · simp only [if_neg hi, Option.map_none]
      cases (tokenCount tokens).find? fun kv => kv.1 = (i : Int) <;> rfl

/-- The penalties of a request that has none leave the candidates. -/
theorem sampleRepetitionPenalties_inactive {r f p : α} (h : r = 1 ∧ f = 0 ∧ p = 0)
    (c : TokenDataArray α) (tokens : List LlamaToken) :
    sampleRepetitionPenalties c tokens r f p = c := if_pos (Or.inr h)

/-! ### The candidates -/

variable {σ τ : Type}

variable {cs : CommonSampler α σ}

omit [Field α] [LinearOrder α] in
theorem lastTokens_ne_nil (h : penaltyTokensUsed cs ≠ 0) : lastTokens cs ≠ [] := by
  apply List.ne_nil_of_length_pos
  have hused : penaltyTokensUsed cs ≤ (penaltyTokens cs).length := by
    rw [penaltyTokensUsed]
    omega
  rw [lastTokens, List.length_drop]
  omega

/-- Whether a request has penalties at all. -/
def PenaltiesActive (cs : CommonSampler α σ) : Prop :=
  penaltyTokensUsed cs ≠ 0 ∧
    ¬ (cs.params.penaltyRepeat = 1 ∧ cs.params.penaltyFreq = 0 ∧ cs.params.penaltyPresent = 0)

instance (cs : CommonSampler α σ) : Decidable (PenaltiesActive cs) := instDecidableAnd

/-- The token whose candidate gets the row's logit back. -/
def IsExempt (cs : CommonSampler α σ) (nlToken : LlamaToken) (token : LlamaToken) : Prop :=
  (¬ cs.params.penalizeNl ∧ nlToken ≠ llamaTokenNull) ∧ token = nlToken

instance (cs : CommonSampler α σ) (nlToken token : LlamaToken) :
    Decidable (IsExempt cs nlToken token) := instDecidableAnd

/-- The logit with the penalty of the request. -/
def requestLogit (cs : CommonSampler α σ) (token : LlamaToken) (logit : α) : α :=
  if PenaltiesActive cs then
    penalizedLogit cs.params.penaltyRepeat cs.params.penaltyFreq cs.params.penaltyPresent
      (lastTokens cs) token logit
  else logit

/-- The logit of a token's candidate, of the row with its biases. -/
def candidateLogit (cs : CommonSampler α σ) (nVocab : Nat) (nlToken : LlamaToken)
    (logits : Logits α) (token : Nat) : α :=
  if penaltyTokensUsed cs ≠ 0 ∧ IsExempt cs nlToken token then logits nlToken
  else requestLogit cs token (biasedLogit (activeBias cs nVocab) logits token)

theorem sampleRepetitionPenalties_request (hused : penaltyTokensUsed cs ≠ 0) (n : Nat)
    (logit : Nat → α) :
    sampleRepetitionPenalties ⟨tokenRow n logit, 0, false⟩ (lastTokens cs) cs.params.penaltyRepeat
        cs.params.penaltyFreq cs.params.penaltyPresent =
      ⟨tokenRow n fun i : Nat => requestLogit cs i (logit i), 0, false⟩ := by
  by_cases hactive : PenaltiesActive cs
  · rw [sampleRepetitionPenalties_tokenRow (lastTokens_ne_nil hused) hactive.2]
    simp only [requestLogit, if_pos hactive]
  · have hnone := not_not.1 fun h => hactive ⟨hused, h⟩
    rw [sampleRepetitionPenalties_inactive hnone]
    simp only [requestLogit, if_neg hactive]

/-- The candidates of a request without guidance, expiring biases and grammar. -/
theorem prepare_eq (o : OtherSamplers α τ) (helb : ¬ cs.elbIdx < cs.nElbStates)
    (hgrammar : cs.grammar = none) (nVocab : Nat) (nlToken : LlamaToken) (grammarFirst : Bool)
    (other : τ) (logits : Logits α) :
    prepare o cs nVocab nlToken false grammarFirst other logits =
      (applyLogitBias cs.params logits, other,
        ⟨tokenRow nVocab (candidateLogit cs nVocab nlToken (applyLogitBias cs.params logits)), 0,
          false⟩) := by
  rw [prepare]
  simp only [Bool.false_eq_true, if_false, if_neg helb, hgrammar, Prod.mk.injEq, true_and]
  by_cases hused : penaltyTokensUsed cs ≠ 0
  · have hpen := sampleRepetitionPenalties_request hused nVocab
      (biasedLogit (activeBias cs nVocab) (applyLogitBias cs.params logits))
    rw [if_pos hused]
    show (if _ then _ else _) = _
    simp only [tokenRow] at hpen
    rw [hpen]
    by_cases hnl : ¬ cs.params.penalizeNl ∧ nlToken ≠ llamaTokenNull
    · rw [if_pos hnl]
      simp only [TokenDataArray.mk.injEq, and_true]
      refine (restoreNl_tokenRow nlToken _ nVocab _).trans ?_
      refine congrArg (tokenRow nVocab) (funext fun i => ?_)
      by_cases hi : (i : Int) = nlToken
      · rw [if_pos hi, if_pos hnl.2, candidateLogit, if_pos ⟨hused, hnl, hi⟩]
      · rw [if_neg hi, candidateLogit, if_neg fun h => hi h.2.2]
    · rw [if_neg hnl]
      refine congrArg (fun data => (⟨data, 0, false⟩ : TokenDataArray α)) ?_
      refine congrArg (tokenRow nVocab) (funext fun i => ?_)
      rw [candidateLogit, if_neg fun h => hnl h.2.1]
  · rw [if_neg hused]
    refine congrArg (fun data => (⟨data, 0, false⟩ : TokenDataArray α)) ?_
    refine congrArg (tokenRow nVocab) (funext fun i => ?_)
    rw [candidateLogit, if_neg fun h => hused h.1, requestLogit, if_neg fun h => hused h.1]

end PxqLlama.Sampling
