import Mathlib.Algebra.BigOperators.Group.List.Basic
import PxqLlama.Proofs.Sampling.TopkRaw
import PxqLlama.Sampling.Rollback

/-!
# `Proofs.Sampling.Rollback`: what a rollback of the sampler loses

Accepting a token changes the history of a sampler, and sampling one changes its draws
(`SamplerHistory`, `SamplerDraws`). The checkpoint has both, but only the accepts are done again. The
history is therefore the sequential one, unless an expiring bias is active: its counters are not in
the clone, and so they count the tokens twice. The draws are those from before the draft.

`NothingLost` says what has to be true of the request, the tokens and the candidates for the two
samplers to be the same. A token costs no number of the sampler's own engines when it is taken
greedily, when mirostat samples it with the engine of the context, or when the samplers have left
fewer than two candidates; adaptive p always draws. `mirostat_mu` is back when the surprises of the
tokens make up for each other, and `n_valid` is the number of candidates at the last token that the
grammar has checked.

All of this is read off the places of the result (`places`): the sampler in front of a token, which
has accepted the tokens before it, and has what mirostat makes of them. That the sampler of the
sequential run is this one, as long as nothing was drawn, is what the induction over the places
carries (`SameView`). An engine that has given a number never comes back to where it was, and so one
place that draws is enough to lose (`DrewOrKept`).
-/

namespace PxqLlama.Sampling

/-! ### What the samplers leave alone -/

section
variable {α δ κ : Type}

/-- The samplers wrote nothing of `common_sampler`. -/
def SideKept (side side' : SamplerSide α δ κ) : Prop :=
  side'.mirostatMu = side.mirostatMu ∧ side'.adaptP = side.adaptP

theorem SideKept.refl (side : SamplerSide α δ κ) : SideKept side side := ⟨rfl, rfl⟩

theorem SideKept.trans {a b c : SamplerSide α δ κ} (h : SideKept a b) (h' : SideKept b c) :
    SideKept a c :=
  ⟨h'.1.trans h.1, h'.2.trans h.2⟩

theorem sideKept_onHost (f : κ × TokenDataArray α → κ × TokenDataArray α)
    (c : SamplerSide α δ κ × TokenDataArray α) : SideKept c.1 (onHost f c).1 := ⟨rfl, rfl⟩

/-- Adaptive p, when there is one. -/
theorem sideKept_adaptive (f : AdaptiveP α → κ × TokenDataArray α → κ × TokenDataArray α)
    (c : SamplerSide α δ κ × TokenDataArray α) :
    SideKept c.1 (match c.1.adaptP with
      | none => c
      | some a => onHost (f a) c : SamplerSide α δ κ × TokenDataArray α).1 := by
  split
  · exact SideKept.refl c.1
  · exact sideKept_onHost _ c

end

section
variable {α δ κ : Type} [Field α] [LinearOrder α] [FloorRing α]
variable (h : Host α Mt19937) (e : HostSamplers α δ κ) (cs : CommonSampler α Mt19937)

/-- No sampler of the queue writes anything of `common_sampler`. -/
theorem sideKept_queueStep (minKeep : Nat) (c : SamplerSide α δ κ × TokenDataArray α)
    (samplerType : SamplerType) :
    SideKept c.1 (queueStep h (e.others h.rng) cs minKeep c samplerType).1 := by
  cases samplerType with
  | topK | topP | minP | dist | adaptiveP => exact SideKept.refl c.1
  | dry =>
    show SideKept c.1 (sampleDry _ _ c).1
    unfold sampleDry
    split
    · exact SideKept.refl c.1
    · exact sideKept_onHost _ c
  | tfsZ =>
    show SideKept c.1 (sampleTailFree _ _ minKeep c).1
    unfold sampleTailFree
    split
    · exact SideKept.refl c.1
    · exact sideKept_onHost _ c
  | typicalP =>
    show SideKept c.1 (sampleTypical _ _ minKeep c).1
    unfold sampleTypical
    split
    · exact SideKept.refl c.1
    · exact sideKept_onHost _ c
  | xtc =>
    show SideKept c.1 (sampleXtc _ _ _ minKeep c).1
    unfold sampleXtc
    split
    · exact SideKept.refl c.1
    · exact sideKept_onHost _ c
  | topNSigma =>
    show SideKept c.1 (sampleTopNSigma _ _ c).1
    unfold sampleTopNSigma
    split
    · exact SideKept.refl c.1
    · exact sideKept_onHost _ c
  | temperature =>
    show SideKept c.1 (if _ then _ else _ : SamplerSide α δ κ × TokenDataArray α).1
    split
    · exact sideKept_onHost _ c
    · exact SideKept.refl c.1

/-- Nor does the whole queue. -/
theorem sideKept_samplerQueue (minKeep : Nat) (c : SamplerSide α δ κ × TokenDataArray α) :
    SideKept c.1 (samplerQueue h (e.others h.rng) cs minKeep c).1 := by
  have hfold : ∀ (sequence : List SamplerType) (c : SamplerSide α δ κ × TokenDataArray α),
      SideKept c.1 (sequence.foldl (queueStep h (e.others h.rng) cs minKeep) c).1 := by
    intro sequence
    induction sequence with
    | nil => exact fun c => SideKept.refl c.1
    | cons samplerType sequence ih =>
      intro c
      exact (sideKept_queueStep h e cs minKeep c samplerType).trans (ih _)
  unfold samplerQueue
  simp only
  split
  · refine (hfold cs.params.samplersSequence c).trans (sideKept_adaptive _ _)
  · exact hfold _ c

end

/-! ### Numbers that are drawn -/

section
variable {α : Type}

/-- How many numbers the two engines of a sampler have given. -/
def numbersDrawn (rng : Mt19937) (adaptP : Option (AdaptiveP α)) : Nat :=
  rng.drawn + match adaptP with
    | none => 0
    | some a => a.rng.drawn

/-- A sampling left the engines as they were, or it drew a number. -/
def DrewOrKept (rng : Mt19937) (adaptP : Option (AdaptiveP α)) (rng' : Mt19937)
    (adaptP' : Option (AdaptiveP α)) : Prop :=
  (rng' = rng ∧ adaptP' = adaptP) ∨ numbersDrawn rng adaptP < numbersDrawn rng' adaptP'

theorem DrewOrKept.refl (rng : Mt19937) (adaptP : Option (AdaptiveP α)) :
    DrewOrKept rng adaptP rng adaptP := Or.inl ⟨rfl, rfl⟩

theorem DrewOrKept.le {rng rng' : Mt19937} {adaptP adaptP' : Option (AdaptiveP α)}
    (h : DrewOrKept rng adaptP rng' adaptP') :
    numbersDrawn rng adaptP ≤ numbersDrawn rng' adaptP' := by
  rcases h with ⟨rfl, rfl⟩ | h
  · exact Nat.le_refl _
  · exact Nat.le_of_lt h

theorem DrewOrKept.trans {rng rng' rng'' : Mt19937} {adaptP adaptP' adaptP'' : Option (AdaptiveP α)}
    (h : DrewOrKept rng adaptP rng' adaptP') (h' : DrewOrKept rng' adaptP' rng'' adaptP'') :
    DrewOrKept rng adaptP rng'' adaptP'' := by
  rcases h with ⟨rfl, rfl⟩ | h
  · exact h'
  · exact Or.inr (Nat.lt_of_lt_of_le h h'.le)

/-- After two samplings the engines are where they were only if each of the two has kept them. -/
theorem DrewOrKept.kept_iff {rng rng' rng'' : Mt19937}
    {adaptP adaptP' adaptP'' : Option (AdaptiveP α)}
    (h : DrewOrKept rng adaptP rng' adaptP') (h' : DrewOrKept rng' adaptP' rng'' adaptP'') :
    (rng'' = rng ∧ adaptP'' = adaptP) ↔
      (rng' = rng ∧ adaptP' = adaptP) ∧ (rng'' = rng' ∧ adaptP'' = adaptP') := by
  constructor
  · rintro ⟨rfl, rfl⟩
    rcases h with ⟨rfl, rfl⟩ | hlt
    · exact ⟨⟨rfl, rfl⟩, rfl, rfl⟩
    · exact absurd h'.le (Nat.not_le.mpr hlt)
  · rintro ⟨⟨rfl, rfl⟩, rfl, rfl⟩
    exact ⟨rfl, rfl⟩

end

section
variable {α : Type} [Field α] [LinearOrder α] {h : Host α Mt19937}

/-- A token is drawn with a number of the engine, unless there are fewer than two candidates. -/
theorem sampleTokenWithRng_rng (hnext : ∀ g, (h.rng g).2 = g.next) (candidates : TokenDataArray α)
    (rng : Mt19937) :
    (sampleTokenWithRng h candidates rng).2.1
      = if candidates.data.length < 2 then rng else rng.next := by
  unfold sampleTokenWithRng
  simp only
  split
  · rfl
  · rw [← hnext]
    split <;> rfl

omit [LinearOrder α] [Field α] in
theorem next_ne (g : Mt19937) : g.next ≠ g := by
  intro heq
  have hdrawn := congrArg Mt19937.drawn heq
  exact absurd hdrawn (Nat.succ_ne_self _)

theorem prepare_other {δ κ : Type} (o : OtherSamplers α (SamplerSide α δ κ))
    {cs : CommonSampler α Mt19937}
    (helb : ¬ cs.elbIdx < cs.nElbStates) (nVocab : Nat) (nlToken : LlamaToken) (grammarFirst : Bool)
    (side : SamplerSide α δ κ) (logits : Logits α) :
    (prepare o cs nVocab nlToken false grammarFirst side logits).2.1 = side := by
  unfold prepare
  simp only [if_neg helb]

end

/-! ### One sampling -/

section
variable {α γ δ κ : Type} [Field α] [LinearOrder α] [FloorRing α] (env : RollbackEnv α γ δ κ)
  (s : RollbackSampler α γ δ) (grammarFirst : Bool) (side : SamplerSide α δ κ) (row : Logits α)

/-- `llama_sampling_sample_impl_default` without the grammar's check. -/
def sampleWith : Sampled α Mt19937 (SamplerSide α δ κ) :=
  sampleOnce env.engine (env.samplers.others env.engine.rng) (s.view env) env.nVocab env.nlToken
    false grammarFirst side row

/-- The row, the state and the candidates that a token is sampled from: with all biases and penalties,
after the reasoning budget and, where it comes first, the grammar. -/
def readyCandidates : Logits α × SamplerSide α δ κ × TokenDataArray α :=
  let (logits, side, curP) := prepare (env.samplers.others env.engine.rng) (s.view env) env.nVocab
    env.nlToken false grammarFirst side row
  let curP := reasoningBudgetApply env.engine (s.view env).rbudget curP
  (logits, side, match (s.view env).grammar with
    | some apply => if grammarFirst ∧ grammarShouldApply (s.view env) then apply curP else curP
    | none => curP)

/-- The state and the candidates that the samplers of the request leave. -/
def queuedCandidates : SamplerSide α δ κ × TokenDataArray α :=
  samplerQueue env.engine (env.samplers.others env.engine.rng) (s.view env) (minKeepOf s.params)
    (readyCandidates env s grammarFirst side row).2

/-- Mirostat samples the tokens. -/
def UsesMirostat (params : SamplingParams α) : Prop := params.mirostat = 1 ∨ params.mirostat = 2

instance (params : SamplingParams α) : Decidable (UsesMirostat params) :=
  inferInstanceAs (Decidable (_ ∨ _))

/-- Adaptive p samples the tokens, unless they are taken greedily or mirostat does. -/
def UsesAdaptiveP : Prop := 0 ≤ s.params.adaptiveTarget ∧ s.adaptP.isSome = true

instance : Decidable (UsesAdaptiveP s) := inferInstanceAs (Decidable (_ ∧ _))

/-- The observed surprise of the token that mirostat samples. -/
def surprise : α :=
  let ready := (readyCandidates env s grammarFirst side row).2
  (env.samplers.tokenMirostat s.params.mirostat ready.1.mirostatMu
    (ready.1.host, sampleTemp ready.2 s.params.temp)).2.1

/-- Sampling costs no number of the engines: the token is taken greedily, mirostat samples it with the
engine of the context, or there are fewer than two candidates to draw from. -/
def CostsNothing : Prop :=
  s.params.temp ≤ 0 ∨ UsesMirostat s.params ∨
    (¬ UsesAdaptiveP s ∧ (queuedCandidates env s grammarFirst side row).2.data.length < 2)

theorem readyCandidates_side : (readyCandidates env s grammarFirst side row).2.1 = side := by
  have helb : ¬ (s.view env).elbIdx < (s.view env).nElbStates := Nat.lt_irrefl 0
  exact prepare_other (env.samplers.others env.engine.rng) helb env.nVocab env.nlToken grammarFirst
    side row

/-- The four ways to sample a token, from the candidates that are ready. -/
theorem sampleWith_eq : sampleWith env s grammarFirst side row =
    let (logits, side, curP) := readyCandidates env s grammarFirst side row
    if s.params.temp < 0 then
      let curP := softmax env.engine curP true
      ⟨curP.data.head?.map TokenData.id, curP, s.rng, logits, false, side⟩
    else if s.params.temp = 0 then ⟨sampleTokenGreedy curP, curP, s.rng, logits, false, side⟩
    else if UsesMirostat s.params then
      let (token, side, curP) := sampleTokenMirostat env.samplers s.params.mirostat
        s.params.mirostatTau s.params.mirostatEta (side, sampleTemp curP s.params.temp)
      ⟨token, curP, s.rng, logits, false, side⟩
    else if UsesAdaptiveP s then
      let c := samplerQueue env.engine (env.samplers.others env.engine.rng) (s.view env)
        (minKeepOf s.params) ((env.samplers.others env.engine.rng).prepAdaptiveP (side, curP))
      let (token, side, curP) := sampleTokenAdaptiveP env.samplers env.engine.rng c
      ⟨token, curP, s.rng, logits, false, side⟩
    else
      let (side, curP) := samplerQueue env.engine (env.samplers.others env.engine.rng)
        (s.view env) (minKeepOf s.params) (side, curP)
      let (token, rng, softfailed) := sampleTokenWithRng env.engine curP s.rng
      ⟨token, curP, rng, logits, softfailed, side⟩ := by
  unfold sampleWith sampleOnce readyCandidates UsesMirostat UsesAdaptiveP
  rfl

section
variable {env s grammarFirst side row}

/-- Greedy sampling draws nothing. -/
theorem sampleWith_greedy (htemp : s.params.temp ≤ 0) :
    (sampleWith env s grammarFirst side row).rng = s.rng ∧
      (sampleWith env s grammarFirst side row).other = side := by
  have hside := readyCandidates_side env s grammarFirst side row
  rw [sampleWith_eq]
  simp only
  by_cases hneg : s.params.temp < 0
  · rw [if_pos hneg]
    exact ⟨rfl, hside⟩
  · rw [if_neg hneg, if_pos (le_antisymm htemp (not_lt.mp hneg))]
    exact ⟨rfl, hside⟩

/-- Mirostat moves its own `mu` and no engine of the sampler. -/
theorem sampleWith_mirostat (htemp : 0 < s.params.temp) (hmirostat : UsesMirostat s.params) :
    (sampleWith env s grammarFirst side row).rng = s.rng ∧
      (sampleWith env s grammarFirst side row).other.adaptP = side.adaptP ∧
      (sampleWith env s grammarFirst side row).other.mirostatMu = side.mirostatMu
        - s.params.mirostatEta
          * (surprise env s grammarFirst side row - s.params.mirostatTau) := by
  have hside := readyCandidates_side env s grammarFirst side row
  rw [sampleWith_eq, surprise]
  simp only [hside]
  rw [if_neg (not_lt_of_gt htemp), if_neg (ne_of_gt htemp), if_pos hmirostat]
  exact ⟨rfl, rfl, rfl⟩

omit [Field α] [LinearOrder α] [FloorRing α] in
/-- Adaptive p writes its own state only, and draws one number of its own engine. -/
theorem sampleTokenAdaptiveP_side {e : HostSamplers α δ κ} {rng : Mt19937 → Nat × Mt19937}
    (hnext : ∀ g, (rng g).2 = g.next) (c : SamplerSide α δ κ × TokenDataArray α) :
    (sampleTokenAdaptiveP e rng c).2.1.mirostatMu = c.1.mirostatMu ∧
      match c.1.adaptP with
      | none => (sampleTokenAdaptiveP e rng c).2.1.adaptP = none
      | some a => ∃ a', (sampleTokenAdaptiveP e rng c).2.1.adaptP = some a' ∧
          a'.rng = a.rng.next := by
  unfold sampleTokenAdaptiveP
  cases ha : c.1.adaptP with
  | none => exact ⟨rfl, ha⟩
  | some a => exact ⟨rfl, _, rfl, hnext a.rng⟩

/-- With adaptive-p only its own engine draws. -/
theorem sampleWith_adaptiveP (htemp : 0 < s.params.temp) (hmirostat : ¬ UsesMirostat s.params)
    (hadaptive : UsesAdaptiveP s) :
    (sampleWith env s grammarFirst side row).rng = s.rng ∧
      (sampleWith env s grammarFirst side row).other.mirostatMu = side.mirostatMu ∧
      match side.adaptP with
      | none => (sampleWith env s grammarFirst side row).other.adaptP = none
      | some a => ∃ a', (sampleWith env s grammarFirst side row).other.adaptP = some a' ∧
          a'.rng = a.rng.next := by
  have hside := readyCandidates_side env s grammarFirst side row
  obtain ⟨c, hkept, hrng, hother⟩ : ∃ c : SamplerSide α δ κ × TokenDataArray α,
      SideKept (readyCandidates env s grammarFirst side row).2.1 c.1 ∧
        (sampleWith env s grammarFirst side row).rng = s.rng ∧
        (sampleWith env s grammarFirst side row).other
          = (sampleTokenAdaptiveP env.samplers env.engine.rng c).2.1 := by
    have hprep := sideKept_adaptive env.samplers.prepAdaptiveP
      (readyCandidates env s grammarFirst side row).2
    have hqueue := sideKept_samplerQueue env.engine env.samplers (s.view env) (minKeepOf s.params)
    have heq := sampleWith_eq env s grammarFirst side row
    simp only at heq
    rw [if_neg (not_lt_of_gt htemp), if_neg (ne_of_gt htemp), if_neg hmirostat,
      if_pos hadaptive] at heq
    exact ⟨_, hprep.trans (hqueue _), congrArg Sampled.rng heq, congrArg Sampled.other heq⟩
  rw [hside] at hkept
  have hdrawn := sampleTokenAdaptiveP_side (e := env.samplers) env.engine_next c
  rw [hkept.1, hkept.2] at hdrawn
  rw [hother]
  exact ⟨hrng, hdrawn⟩

/-- A token that is drawn from the candidates that are left. -/
theorem sampleWith_drawn (htemp : 0 < s.params.temp) (hmirostat : ¬ UsesMirostat s.params)
    (hadaptive : ¬ UsesAdaptiveP s) :
    (sampleWith env s grammarFirst side row).other
        = (queuedCandidates env s grammarFirst side row).1 ∧
      (sampleWith env s grammarFirst side row).rng
        = (if (queuedCandidates env s grammarFirst side row).2.data.length < 2 then s.rng
          else s.rng.next) ∧
      SideKept side (queuedCandidates env s grammarFirst side row).1 := by
  have hside := readyCandidates_side env s grammarFirst side row
  have hqueue := sideKept_samplerQueue env.engine env.samplers (s.view env) (minKeepOf s.params)
    (readyCandidates env s grammarFirst side row).2
  rw [hside] at hqueue
  rw [sampleWith_eq]
  simp only
  rw [if_neg (not_lt_of_gt htemp), if_neg (ne_of_gt htemp), if_neg hmirostat, if_neg hadaptive]
  exact ⟨rfl, sampleTokenWithRng_rng env.engine_next _ s.rng, hqueue⟩

end

/-- Sampling changes `mirostat_mu` only for mirostat. -/
theorem sampleWith_mu : (sampleWith env s grammarFirst side row).other.mirostatMu =
    if 0 < s.params.temp ∧ UsesMirostat s.params then side.mirostatMu
      - s.params.mirostatEta * (surprise env s grammarFirst side row - s.params.mirostatTau)
    else side.mirostatMu := by
  rcases le_or_gt s.params.temp 0 with htemp | htemp
  · rw [if_neg fun h => absurd h.1 (not_lt.mpr htemp), (sampleWith_greedy htemp).2]
  · by_cases hmirostat : UsesMirostat s.params
    · rw [if_pos ⟨htemp, hmirostat⟩, (sampleWith_mirostat htemp hmirostat).2.2]
    · rw [if_neg fun h => hmirostat h.2]
      by_cases hadaptive : UsesAdaptiveP s
      · exact (sampleWith_adaptiveP htemp hmirostat hadaptive).2.1
      · obtain ⟨hother, -, hkept⟩ :=
          @sampleWith_drawn _ _ _ _ _ _ _ env s grammarFirst side row htemp hmirostat hadaptive
        rw [hother]
        exact hkept.1

/-- One sampling keeps the engines or draws a number, and it keeps them exactly when it costs
nothing. -/
theorem sampleWith_engines :
    DrewOrKept s.rng side.adaptP (sampleWith env s grammarFirst side row).rng
        (sampleWith env s grammarFirst side row).other.adaptP ∧
      (side.adaptP = s.adaptP →
        ((sampleWith env s grammarFirst side row).rng = s.rng ∧
            (sampleWith env s grammarFirst side row).other.adaptP = side.adaptP ↔
          CostsNothing env s grammarFirst side row)) := by
  rcases le_or_gt s.params.temp 0 with htemp | htemp
  · obtain ⟨hrng, hother⟩ := @sampleWith_greedy _ _ _ _ _ _ _ env s grammarFirst side row htemp
    rw [hrng, hother]
    exact ⟨DrewOrKept.refl _ _, fun _ => iff_of_true ⟨rfl, rfl⟩ (Or.inl htemp)⟩
  · by_cases hmirostat : UsesMirostat s.params
    · obtain ⟨hrng, hadaptP, -⟩ :=
        @sampleWith_mirostat _ _ _ _ _ _ _ env s grammarFirst side row htemp hmirostat
      rw [hrng, hadaptP]
      exact ⟨DrewOrKept.refl _ _, fun _ => iff_of_true ⟨rfl, rfl⟩ (Or.inr (Or.inl hmirostat))⟩
    · rw [CostsNothing, or_iff_right (not_le.mpr htemp), or_iff_right hmirostat]
      by_cases hadaptive : UsesAdaptiveP s
      · obtain ⟨hrng, -, hadaptP⟩ :=
          @sampleWith_adaptiveP _ _ _ _ _ _ _ env s grammarFirst side row htemp hmirostat hadaptive
        rw [hrng]
        cases hside : side.adaptP with
        | none =>
          rw [hside] at hadaptP
          rw [hadaptP]
          refine ⟨DrewOrKept.refl _ _, fun hsame => ?_⟩
          have hsome := hadaptive.2
          rw [← hsame] at hsome
          cases hsome
        | some a =>
          rw [hside] at hadaptP
          obtain ⟨a', ha', hnext⟩ := hadaptP
          rw [ha']
          refine ⟨Or.inr ?_, fun _ => iff_of_false ?_ fun h => h.1 hadaptive⟩
          · show s.rng.drawn + a.rng.drawn < s.rng.drawn + a'.rng.drawn
            rw [hnext]
            exact Nat.lt_succ_self _
          · rintro ⟨-, heq⟩
            obtain rfl := Option.some.inj heq
            exact next_ne _ hnext.symm
      · obtain ⟨hother, hrng, hkept⟩ :=
          @sampleWith_drawn _ _ _ _ _ _ _ env s grammarFirst side row htemp hmirostat hadaptive
        rw [hother, hrng, hkept.2, and_iff_right hadaptive]
        by_cases hfew : (queuedCandidates env s grammarFirst side row).2.data.length < 2
        · rw [if_pos hfew]
          exact ⟨DrewOrKept.refl _ _, fun _ => iff_of_true ⟨rfl, rfl⟩ hfew⟩
        · rw [if_neg hfew]
          refine ⟨Or.inr ?_, fun _ => iff_of_false (fun h => next_ne _ h.1) hfew⟩
          show s.rng.drawn + _ < s.rng.drawn + 1 + _
          omega

end

/-! ### The grammar's check -/

section
variable {α γ δ κ : Type} [Field α] [LinearOrder α] [FloorRing α] (env : RollbackEnv α γ δ κ)
  (s : RollbackSampler α γ δ) (host : κ) (row : Logits α)

/-- The grammar is asked about a token that was sampled without it, and does not accept it. -/
def refuses (logits : Logits α) (token : Option LlamaToken) : Bool :=
  match (s.view env).grammar, token with
  | some apply, some token =>
    !env.grammarFirst && grammarShouldApply (s.view env) &&
      decide ((apply ⟨[⟨token, logits token, 0⟩], 0, false⟩).data.head?.map TokenData.logit
        = some env.engine.negInfinity)
  | _, _ => false

/-- The row of the second sampling, which is put back as far as the vocabulary goes. -/
def rowPutBack (logits : Logits α) : Logits α :=
  fun i => if 0 ≤ i ∧ i < env.nVocab then row i else logits i

/-- The first sampling of a token. -/
def firstSampled : Sampled α Mt19937 (SamplerSide α δ κ) :=
  sampleWith env s env.grammarFirst (s.side host) row

/-- A sampling that the grammar refuses is done again with the grammar first. -/
theorem sampleImplDefault_checked :
    sampleImplDefault env.engine (env.samplers.others env.engine.rng) (s.view env) env.nVocab
        env.nlToken false env.grammarFirst (s.side host) row =
      if refuses env s (firstSampled env s host row).logits (firstSampled env s host row).token then
        sampleWith env { s with rng := (firstSampled env s host row).rng } true
          (firstSampled env s host row).other
          (rowPutBack env row (firstSampled env s host row).logits)
      else firstSampled env s host row := by
  have hfirst : sampleOnce env.engine (env.samplers.others env.engine.rng) (s.view env) env.nVocab
      env.nlToken false env.grammarFirst (s.side host) row = firstSampled env s host row := rfl
  have hsecond : ∀ (rng : Mt19937) (side : SamplerSide α δ κ) (row : Logits α),
      sampleOnce env.engine (env.samplers.others env.engine.rng) { s.view env with rng := rng }
        env.nVocab env.nlToken false true side row
        = sampleWith env { s with rng := rng } true side row := fun _ _ _ => rfl
  unfold sampleImplDefault refuses
  simp only [hfirst, hsecond]
  generalize firstSampled env s host row = sampled
  cases (s.view env).grammar with
  | none => rfl
  | some apply =>
    cases sampled.token with
    | none => rfl
    | some token =>
      simp only
      by_cases hcheck : env.grammarFirst = true ∨ ¬ grammarShouldApply (s.view env) = true
      · rw [if_pos hcheck, if_neg]
        rcases hcheck with hfirst | hskip
        · simp [hfirst]
        · simp [hskip]
      · rw [if_neg hcheck]
        rw [not_or, Bool.not_eq_true, not_not] at hcheck
        rw [hcheck.1, hcheck.2]
        by_cases hvalid : (apply ⟨[⟨token, sampled.logits token, 0⟩], 0, false⟩).data.head?.map
            TokenData.logit = some env.engine.negInfinity
        · rw [if_neg (not_not.mpr hvalid), if_pos (by simp [hvalid])]
          rfl
        · rw [if_pos hvalid, if_neg (by simp [hvalid])]

/-- No number is drawn for the token of a place: sampling costs nothing, and where the grammar refuses
the only candidate, sampling again costs nothing either. -/
def DrawsNothing : Prop :=
  CostsNothing env s env.grammarFirst (s.side host) row ∧
    (refuses env s (firstSampled env s host row).logits (firstSampled env s host row).token = true →
      CostsNothing env s true (firstSampled env s host row).other
        (rowPutBack env row (firstSampled env s host row).logits))

/-- The surprises of the tokens that mirostat samples for a place. -/
def surprises : List α :=
  surprise env s env.grammarFirst (s.side host) row ::
    if refuses env s (firstSampled env s host row).logits (firstSampled env s host row).token then
      [surprise env s true (firstSampled env s host row).other
        (rowPutBack env row (firstSampled env s host row).logits)]
    else []

/-- What mirostat makes of `mirostat_mu` at a place. -/
def muAfter : α :=
  if 0 < s.params.temp ∧ UsesMirostat s.params then s.mirostatMu
    - s.params.mirostatEta * ((surprises env s host row).map (· - s.params.mirostatTau)).sum
  else s.mirostatMu

end

/-! ### One token -/

section
variable {α γ δ κ : Type} [Field α] [LinearOrder α] [FloorRing α] (env : RollbackEnv α γ δ κ)
  {s : RollbackSampler α γ δ} (host : κ) (row : Logits α)

/-- Sampling without an active expiring bias. -/
theorem sample_inactive (hs : s.elb.active = false) :
    (commonSamplerSample env s host row).sampler.toSamplerHistory = s.toSamplerHistory ∧
      (commonSamplerSample env s host row).sampler.nValid
        = (checkedSize env s host row).getD s.nValid := by
  rw [commonSamplerSample, if_neg (by rw [hs]; exact Bool.false_ne_true)]
  exact ⟨rfl, rfl⟩

/-- What sampling leaves of `mirostat_mu`. -/
theorem sample_mu (hs : s.elb.active = false) :
    (commonSamplerSample env s host row).sampler.mirostatMu = muAfter env s host row := by
  have hfirst : (firstSampled env s host row).other.mirostatMu = _ :=
    sampleWith_mu env s env.grammarFirst (s.side host) row
  rw [commonSamplerSample, if_neg (by rw [hs]; exact Bool.false_ne_true)]
  show (sampleImplDefault _ _ _ _ _ _ _ _ _ : Sampled α Mt19937 (SamplerSide α δ κ)).other.mirostatMu
    = _
  rw [sampleImplDefault_checked, muAfter, surprises]
  generalize hlogits : (firstSampled env s host row).logits = logits
  split
  · have hsecond := sampleWith_mu env { s with rng := (firstSampled env s host row).rng } true
      (firstSampled env s host row).other (rowPutBack env row logits)
    rw [hsecond, hfirst]
    simp only [List.map_cons, List.map_nil, List.sum_cons, List.sum_nil]
    split
    · show s.mirostatMu - _ - _ = s.mirostatMu - _
      rw [add_zero, mul_add, sub_sub]
      rfl
    · rfl
  · rw [hfirst]
    simp only [List.map_cons, List.map_nil, List.sum_cons, List.sum_nil, add_zero]
    rfl

/-- Sampling keeps the engines or draws a number, and it keeps them exactly when nothing is drawn for
the token. -/
theorem sample_engines (hs : s.elb.active = false) :
    DrewOrKept s.rng s.adaptP (commonSamplerSample env s host row).sampler.rng
        (commonSamplerSample env s host row).sampler.adaptP ∧
      ((commonSamplerSample env s host row).sampler.rng = s.rng ∧
          (commonSamplerSample env s host row).sampler.adaptP = s.adaptP ↔
        DrawsNothing env s host row) := by
  obtain ⟨hfirst, hfirst_iff⟩ := sampleWith_engines env s env.grammarFirst (s.side host) row
  replace hfirst_iff := hfirst_iff rfl
  change DrewOrKept s.rng s.adaptP (firstSampled env s host row).rng
    (firstSampled env s host row).other.adaptP at hfirst
  change ((firstSampled env s host row).rng = s.rng ∧
    (firstSampled env s host row).other.adaptP = s.adaptP ↔ _) at hfirst_iff
  rw [commonSamplerSample, if_neg (by rw [hs]; exact Bool.false_ne_true)]
  show DrewOrKept s.rng s.adaptP
      (sampleImplDefault _ _ _ _ _ _ _ _ _ : Sampled α Mt19937 (SamplerSide α δ κ)).rng
      (sampleImplDefault _ _ _ _ _ _ _ _ _ : Sampled α Mt19937 (SamplerSide α δ κ)).other.adaptP ∧
    ((sampleImplDefault _ _ _ _ _ _ _ _ _ : Sampled α Mt19937 (SamplerSide α δ κ)).rng = s.rng ∧
      (sampleImplDefault _ _ _ _ _ _ _ _ _ : Sampled α Mt19937 (SamplerSide α δ κ)).other.adaptP
        = s.adaptP ↔ _)
  rw [sampleImplDefault_checked, DrawsNothing, ← hfirst_iff]
  by_cases hrefuses : refuses env s (firstSampled env s host row).logits
      (firstSampled env s host row).token = true
  · obtain ⟨hsecond, hsecond_iff⟩ := sampleWith_engines env
      { s with rng := (firstSampled env s host row).rng } true (firstSampled env s host row).other
      (rowPutBack env row (firstSampled env s host row).logits)
    rw [if_pos hrefuses, hfirst.kept_iff hsecond]
    refine ⟨hfirst.trans hsecond, and_congr_right fun hkept => ?_⟩
    rw [forall_prop_of_true hrefuses]
    exact hsecond_iff hkept.2
  · rw [if_neg hrefuses]
    exact ⟨hfirst, (and_iff_left fun h => absurd h hrefuses).symm⟩

/-- The sampler after a token for which nothing is drawn. -/
theorem sample_of_drawsNothing (hs : s.elb.active = false) (h : DrawsNothing env s host row) :
    (commonSamplerSample env s host row).sampler = { s with
      mirostatMu := muAfter env s host row
      nValid := (checkedSize env s host row).getD s.nValid } := by
  obtain ⟨hhistory, hnValid⟩ := sample_inactive env host row hs
  have hmu := sample_mu env host row hs
  obtain ⟨hrng, hadaptP⟩ := (sample_engines env host row hs).2.mpr h
  generalize (commonSamplerSample env s host row).sampler = drawn at *
  obtain ⟨history, draws⟩ := drawn
  replace hhistory : history = s.toSamplerHistory := hhistory
  subst hhistory
  congr 1
  exact SamplerDraws.ext hmu hadaptP hnValid hrng

/-- Accepting without an active expiring bias. -/
theorem accept_inactive (hs : s.elb.active = false) (id : LlamaToken) :
    commonSamplerAccept env s id = some (acceptToken env s id) := by
  have hsame : (acceptToken env s id).elb.active = false := hs
  rw [commonSamplerAccept, if_neg (by rw [hsame]; exact Bool.false_ne_true)]

/-- What accepting does to the history does not depend on the draws. -/
theorem acceptToken_history {t : RollbackSampler α γ δ}
    (heq : s.toSamplerHistory = t.toSamplerHistory) (id : LlamaToken) :
    (acceptToken env s id).toSamplerHistory = (acceptToken env t id).toSamplerHistory := by
  obtain ⟨history, draws⟩ := s
  obtain ⟨history', draws'⟩ := t
  replace heq : history = history' := heq
  subst heq
  rfl

end

/-! ### The places of a result -/

/-- A token of the result: the sampler and the context in front of it, and its row. -/
structure Place (α γ δ κ : Type) where
  sampler : RollbackSampler α γ δ
  host : κ
  row : Logits α

variable {ids : List LlamaToken}

section
variable {α γ δ κ : Type} [Field α] [LinearOrder α] [FloorRing α] (env : RollbackEnv α γ δ κ)

/-- The places of the tokens. The sampler in front of one has accepted those before it, and has what
mirostat makes of them. -/
def places : (ids : List LlamaToken) → (rows : List (Logits α)) → κ → RollbackSampler α γ δ →
    List (Place α γ δ κ)
  | id :: ids, row :: rows, host, s => ⟨s, host, row⟩ ::
      places ids rows (commonSamplerSample env s host row).host
        (acceptToken env { s with mirostatMu := muAfter env s host row } id)
  | _, _, _, _ => []

/-- The surprises of all tokens, as they differ from the target. -/
def surpriseErrors (params : SamplingParams α) (ps : List (Place α γ δ κ)) : List α :=
  (ps.flatMap fun p => surprises env p.sampler p.host p.row).map (· - params.mirostatTau)

/-- The number of candidates at the last place where the grammar has checked and accepted a token. -/
def lastChecked (ps : List (Place α γ δ κ)) : Option Nat :=
  (ps.filterMap fun p => checkedSize env p.sampler p.host p.row).getLast?

/-- Nothing of the sampler is lost over these places: no expiring bias is active; no number is drawn
for a token; the surprises that mirostat sees make up for each other, or it does not learn; and
`n_valid` is the one of the last place that sets it. -/
structure NothingLost (s : RollbackSampler α γ δ) (ps : List (Place α γ δ κ)) : Prop where
  inactive : s.elb.active = false
  draws : ∀ p ∈ ps, DrawsNothing env p.sampler p.host p.row
  mirostat : 0 < s.params.temp → UsesMirostat s.params →
    s.params.mirostatEta = 0 ∨ (surpriseErrors env s.params ps).sum = 0
  nValid : ∀ n ∈ lastChecked env ps, n = s.nValid

/-! ### The run of the tokens -/

variable {s : RollbackSampler α γ δ}

theorem acceptEach_draws (ids : List LlamaToken) (s : RollbackSampler α γ δ) :
    (ids.foldl (acceptToken env) s).toSamplerDraws = s.toSamplerDraws := by
  induction ids generalizing s with
  | nil => rfl
  | cons id ids ih =>
    rw [List.foldl_cons, ih]
    rfl

/-- Accepting the tokens again. -/
theorem acceptEach_inactive (hs : s.elb.active = false) (ids : List LlamaToken) :
    ids.foldlM (commonSamplerAccept env) s = some (ids.foldl (acceptToken env) s) := by
  induction ids generalizing s with
  | nil => rfl
  | cons id ids ih =>
    rw [List.foldlM_cons, accept_inactive env hs]
    exact ih hs

/-- The accepts alone make the history. -/
theorem acceptEach_history {t : RollbackSampler α γ δ}
    (heq : s.toSamplerHistory = t.toSamplerHistory) (ids : List LlamaToken) :
    (ids.foldl (acceptToken env) s).toSamplerHistory
      = (ids.foldl (acceptToken env) t).toSamplerHistory := by
  induction ids generalizing s t with
  | nil => exact heq
  | cons id ids ih =>
    rw [List.foldl_cons, List.foldl_cons]
    exact ih (acceptToken_history env heq id)

/-- What mirostat makes of `mirostat_mu` over the places. -/
def muOver (s : RollbackSampler α γ δ) (ps : List (Place α γ δ κ)) : α :=
  if 0 < s.params.temp ∧ UsesMirostat s.params then
    s.mirostatMu - s.params.mirostatEta * (surpriseErrors env s.params ps).sum
  else s.mirostatMu

/-- The places behind the first one. -/
theorem muOver_cons (id : LlamaToken) (host : κ) (row : Logits α) (ps : List (Place α γ δ κ)) :
    muOver env (acceptToken env { s with mirostatMu := muAfter env s host row } id) ps
      = muOver env s (⟨s, host, row⟩ :: ps) := by
  show (if 0 < s.params.temp ∧ UsesMirostat s.params then muAfter env s host row - _ else _) = _
  rw [muOver, muAfter, surpriseErrors, surpriseErrors, List.flatMap_cons, List.map_append,
    List.sum_append]
  split
  · rw [mul_add, sub_sub]
    rfl
  · rfl

theorem lastChecked_cons (p : Place α γ δ κ) (ps : List (Place α γ δ κ)) (n : Nat) :
    (lastChecked env (p :: ps)).getD n
      = (lastChecked env ps).getD ((checkedSize env p.sampler p.host p.row).getD n) := by
  rw [lastChecked, lastChecked, List.filterMap_cons]
  cases checkedSize env p.sampler p.host p.row with
  | none => rfl
  | some m =>
    simp only
    rw [List.getLast?_cons]
    rfl

/-- What sampling and accepting the tokens leaves. The history is the one of the accepts. The engines
have kept their places or drawn a number, and they have kept them exactly when nothing was drawn at
any of the places; then the two other draws follow from the places as well. `n_valid` is none of what
the places are made of. -/
structure SampledEach (s : RollbackSampler α γ δ) (n : Nat) (ids : List LlamaToken)
    (ps : List (Place α γ δ κ)) (r : RollbackSampler α γ δ) : Prop where
  history : r.toSamplerHistory = (ids.foldl (acceptToken env) s).toSamplerHistory
  engines : DrewOrKept s.rng s.adaptP r.rng r.adaptP
  kept : (r.rng = s.rng ∧ r.adaptP = s.adaptP) ↔
    ∀ p ∈ ps, DrawsNothing env p.sampler p.host p.row
  mu : (∀ p ∈ ps, DrawsNothing env p.sampler p.host p.row) → r.mirostatMu = muOver env s ps
  nValid : (∀ p ∈ ps, DrawsNothing env p.sampler p.host p.row) →
    r.nValid = (lastChecked env ps).getD n

variable {rows : List (Logits α)}

/-- A run that goes on from where something was drawn: only its history and engines matter. -/
theorem sampleEach_engines (hs : s.elb.active = false) (hlength : ids.length ≤ rows.length)
    (host : κ) :
    ∃ host' r, sampleEach env ids rows host s = some (host', r) ∧
      r.toSamplerHistory = (ids.foldl (acceptToken env) s).toSamplerHistory ∧
      DrewOrKept s.rng s.adaptP r.rng r.adaptP := by
  induction ids generalizing s rows host with
  | nil => exact ⟨host, s, by cases rows <;> rfl, rfl, DrewOrKept.refl _ _⟩
  | cons id ids ih =>
    cases rows with
    | nil => cases hlength
    | cons row rows =>
      have hhistory := (sample_inactive env host row hs).1
      have hengines := (sample_engines env host row hs).1
      rw [sampleEach]
      generalize commonSamplerSample env s host row = drawn at hhistory hengines
      have hdrawn : drawn.sampler.elb.active = false := by
        rw [show drawn.sampler.elb = s.elb from congrArg SamplerHistory.elb hhistory]
        exact hs
      obtain ⟨host', r, hr, hrest, hlater⟩ :=
        ih (s := acceptToken env drawn.sampler id) hdrawn (Nat.le_of_succ_le_succ hlength)
          drawn.host
      refine ⟨host', r, ?_, ?_, hengines.trans hlater⟩
      · rw [accept_inactive env hdrawn]
        exact hr
      · rw [hrest, List.foldl_cons]
        exact acceptEach_history env (acceptToken_history env hhistory id) ids

/-- The context does not see `n_valid`. -/
theorem sample_host_nValid (hs : s.elb.active = false) (host : κ) (row : Logits α) (n : Nat) :
    (commonSamplerSample env { s with nValid := n } host row).host
      = (commonSamplerSample env s host row).host := by
  have hno : ¬ s.elb.active = true := by
    rw [hs]
    exact Bool.false_ne_true
  have hno' : ¬ ({ s with nValid := n } : RollbackSampler α γ δ).elb.active = true := hno
  rw [commonSamplerSample, commonSamplerSample, if_neg hno, if_neg hno']
  rfl

/-- The run lemma. The sequential sampler is the one of the place, but for `n_valid`, as long as
nothing is drawn. -/
theorem sampleEach_sampled (hs : s.elb.active = false) (hlength : ids.length ≤ rows.length)
    (host : κ) (n : Nat) :
    ∃ host' r, sampleEach env ids rows host { s with nValid := n } = some (host', r) ∧
      SampledEach env s n ids (places env ids rows host s) r := by
  induction ids generalizing s rows host n with
  | nil =>
    have hnone : places env [] rows host s = [] := by cases rows <;> rfl
    refine ⟨host, { s with nValid := n }, by cases rows <;> rfl, ?_⟩
    rw [hnone]
    refine ⟨rfl, DrewOrKept.refl _ _, iff_of_true ⟨rfl, rfl⟩ (by simp), fun _ => ?_, fun _ => rfl⟩
    simp [muOver, surpriseErrors]
  | cons id ids ih =>
    cases rows with
    | nil => cases hlength
    | cons row rows =>
      have hrows := Nat.le_of_succ_le_succ hlength
      have hs' : ({ s with nValid := n } : RollbackSampler α γ δ).elb.active = false := hs
      have hhost := sample_host_nValid env hs host row n
      obtain ⟨hengines, hkept⟩ := sample_engines env host row hs'
      change DrewOrKept s.rng s.adaptP _ _ at hengines
      change (_ = s.rng ∧ _ = s.adaptP ↔ DrawsNothing env s host row) at hkept
      rw [sampleEach, places]
      by_cases hdraws : DrawsNothing env s host row
      · have hsampler := sample_of_drawsNothing env host row hs' hdraws
        rw [hsampler, hhost]
        obtain ⟨host', r, hr, hspec⟩ :=
          ih (s := acceptToken env { s with mirostatMu := muAfter env s host row } id) hs hrows
            (commonSamplerSample env s host row).host ((checkedSize env s host row).getD n)
        refine ⟨host', r, ?_, ?_, hspec.engines, ?_, fun hall => ?_, fun hall => ?_⟩
        · rw [accept_inactive env (by exact hs)]
          exact hr
        · rw [hspec.history, List.foldl_cons]
          exact acceptEach_history env (acceptToken_history env (by rfl) id) ids
        · rw [List.forall_mem_cons, and_iff_right hdraws]
          exact hspec.kept
        · rw [hspec.mu fun p hp => hall p (List.mem_cons_of_mem _ hp)]
          exact muOver_cons env id host row _
        · rw [hspec.nValid fun p hp => hall p (List.mem_cons_of_mem _ hp), lastChecked_cons]
      · -- a number is gone for good
        have hhistory := (sample_inactive env host row hs').1
        generalize commonSamplerSample env { s with nValid := n } host row = drawn
          at hhistory hengines hkept
        have hdrawn : drawn.sampler.elb.active = false := by
          rw [show drawn.sampler.elb = s.elb from congrArg SamplerHistory.elb hhistory]
          exact hs
        obtain ⟨host', r, hr, hrest, hlater⟩ :=
          sampleEach_engines env (s := acceptToken env drawn.sampler id) hdrawn hrows drawn.host
        change DrewOrKept drawn.sampler.rng drawn.sampler.adaptP _ _ at hlater
        have hnot : ¬ ∀ p ∈ (⟨s, host, row⟩ : Place α γ δ κ) ::
            places env ids rows (commonSamplerSample env s host row).host
              (acceptToken env { s with mirostatMu := muAfter env s host row } id),
            DrawsNothing env p.sampler p.host p.row :=
          fun hall => hdraws (hall _ List.mem_cons_self)
        refine ⟨host', r, ?_, ?_, hengines.trans hlater, ?_, fun hall => absurd hall hnot,
          fun hall => absurd hall hnot⟩
        · rw [accept_inactive env hdrawn]
          exact hr
        · rw [hrest, List.foldl_cons]
          exact acceptEach_history env (acceptToken_history env (by exact hhistory) id) ids
        · rw [hengines.kept_iff hlater]
          exact iff_of_false (fun h => hdraws (hkept.mp h.1)) hnot

end

/-! ### Expiring biases -/

/-- How many tokens the states have counted. -/
def ElbStates.clock (elb : ElbStates) : Nat := (elb.stages.map ElbStage.countup).sum

/-- A store that counts one more token. -/
theorem clock_set {stages : List (ElbStage Unit)} {i : Nat} (hi : i < stages.length)
    (stage : ElbStage Unit) :
    ((stages.set i stage).map ElbStage.countup).sum + stages[i].countup
      = (stages.map ElbStage.countup).sum + stage.countup := by
  induction stages generalizing i with
  | nil => cases hi
  | cons first stages ih =>
    cases i with
    | zero =>
      simp only [List.set_cons_zero, List.map_cons, List.sum_cons, List.getElem_cons_zero]
      omega
    | succ i =>
      have hrest := ih (Nat.lt_of_succ_lt_succ hi)
      simp only [List.set_cons_succ, List.map_cons, List.sum_cons, List.getElem_cons_succ]
      omega

/-- An active state counts the token, and one is active behind it. -/
theorem elbAccept_clock {elb elb' : ElbStates} {text piece : Server.Bytes}
    (hactive : elb.active = true) (h : elbAccept elb (some text) piece = some elb') :
    elb'.active = true ∧ elb'.clock = elb.clock + 1 := by
  have hidx : elb.elbIdx < elb.stages.length := of_decide_eq_true hactive
  have hstage := List.getElem?_eq_getElem hidx
  have hcounted := clock_set hidx
    { elb.stages[elb.elbIdx] with countup := elb.stages[elb.elbIdx].countup + 1 }
  change _ + elb.stages[elb.elbIdx].countup = _ + (elb.stages[elb.elbIdx].countup + 1) at hcounted
  unfold elbAccept at h
  simp only [hstage] at h
  generalize hstages : elb.stages.set elb.elbIdx
    { elb.stages[elb.elbIdx] with countup := elb.stages[elb.elbIdx].countup + 1 } = stages
    at h hcounted
  have hlength : stages.length = elb.stages.length := by rw [← hstages, List.length_set]
  split at h
  · -- the state that is entered keeps its count
    rename_i idx pos _
    obtain ⟨next, hnext, rfl⟩ := Option.map_eq_some_iff.mp h
    obtain ⟨hin, hget⟩ := List.getElem?_eq_some_iff.mp hnext
    have hentered := clock_set hin { next with entries := next.entries.map (prepareEntry pos) }
    rw [hget] at hentered
    change _ + next.countup = _ + next.countup at hentered
    refine ⟨decide_eq_true ?_, ?_⟩
    · simpa using hin
    · simp only [ElbStates.clock] at hentered ⊢
      omega
  · split at h <;>
    · obtain rfl := Option.some.inj h
      refine ⟨decide_eq_true (hlength ▸ hidx), ?_⟩
      simp only [ElbStates.clock]
      omega

section
variable {α γ δ κ : Type} [Field α] [LinearOrder α] [FloorRing α] (env : RollbackEnv α γ δ κ)
  {s t : RollbackSampler α γ δ}

theorem accept_clock (hs : s.elb.active = true) {id : LlamaToken}
    (h : commonSamplerAccept env s id = some t) :
    t.elb.active = true ∧ t.elb.clock = s.elb.clock + 1 := by
  have hsame : (acceptToken env s id).elb.active = true := hs
  rw [commonSamplerAccept, if_pos hsame] at h
  obtain ⟨elb, helb, rfl⟩ := Option.map_eq_some_iff.mp h
  exact elbAccept_clock hs helb

/-- Sampling leaves the states of the biases alone. -/
theorem sample_elb (host : κ) (row : Logits α) :
    (commonSamplerSample env s host row).sampler.elb = s.elb := by
  rw [commonSamplerSample]
  split <;> rfl

/-- Each accepted token moves the clock by one. -/
theorem acceptEach_clock (hs : s.elb.active = true)
    (h : ids.foldlM (commonSamplerAccept env) s = some t) :
    t.elb.active = true ∧ t.elb.clock = s.elb.clock + ids.length := by
  induction ids generalizing s with
  | nil =>
    obtain rfl := Option.some.inj h
    exact ⟨hs, rfl⟩
  | cons id ids ih =>
    rw [List.foldlM_cons] at h
    obtain ⟨s', hs', hrest⟩ := Option.bind_eq_some_iff.mp h
    obtain ⟨hactive, hclock⟩ := accept_clock env hs hs'
    obtain ⟨hactive', hclock'⟩ := ih hactive hrest
    refine ⟨hactive', ?_⟩
    rw [hclock', hclock, List.length_cons]
    omega

variable {rows : List (Logits α)}

/-- Each sampled token moves the clock of the expiring biases by one. -/
theorem sampleEach_clock (hs : s.elb.active = true) (hlength : ids.length ≤ rows.length)
    {host host' : κ} (h : sampleEach env ids rows host s = some (host', t)) :
    t.elb.active = true ∧ t.elb.clock = s.elb.clock + ids.length := by
  induction ids generalizing s rows host with
  | nil =>
    have hsame : sampleEach env [] rows host s = some (host, s) := by cases rows <;> rfl
    rw [hsame] at h
    obtain ⟨-, rfl⟩ := Prod.mk.inj (Option.some.inj h)
    exact ⟨hs, rfl⟩
  | cons id ids ih =>
    cases rows with
    | nil => cases hlength
    | cons row rows =>
      rw [sampleEach] at h
      obtain ⟨s', hs', hrest⟩ := Option.bind_eq_some_iff.mp h
      have helb := sample_elb env (s := s) host row
      obtain ⟨hactive, hclock⟩ := accept_clock env (by rw [helb]; exact hs) hs'
      obtain ⟨hactive', hclock'⟩ := ih hactive (Nat.le_of_succ_le_succ hlength) hrest
      refine ⟨hactive', ?_⟩
      rw [hclock', hclock, helb, List.length_cons]
      omega

/-! ### The rollback -/

/-- The verification samples and accepts the tokens of its result. -/
theorem sampleAndAcceptN_eq {draft : List LlamaToken} {host host' : κ}
    {s s' : RollbackSampler α γ δ}
    (h : sampleAndAcceptN env draft rows host s = some (ids, host', s')) :
    ids ≠ [] ∧ ids.length ≤ rows.length ∧ sampleEach env ids rows host s = some (host', s') := by
  induction rows generalizing draft ids host s with
  | nil => cases draft <;> cases h
  | cons row rows ih =>
    have hone : ∀ (id : LlamaToken) (s₁ : RollbackSampler α γ δ),
        commonSamplerAccept env (commonSamplerSample env s host row).sampler id = some s₁ →
        sampleEach env [id] (row :: rows) host s
          = some ((commonSamplerSample env s host row).host, s₁) := by
      intro id s₁ hs₁
      rw [sampleEach, hs₁]
      show sampleEach env [] rows _ s₁ = _
      cases rows <;> rfl
    cases draft with
    | nil =>
      obtain ⟨id, -, hresult⟩ := Option.bind_eq_some_iff.mp h
      obtain ⟨s₁, hs₁, hresult⟩ := Option.bind_eq_some_iff.mp hresult
      cases hresult
      exact ⟨List.cons_ne_nil _ _, Nat.succ_le_succ (Nat.zero_le _), hone id _ hs₁⟩
    | cons drafted draft =>
      obtain ⟨id, -, hresult⟩ := Option.bind_eq_some_iff.mp h
      simp only at hresult
      obtain ⟨s₁, hs₁, hresult⟩ := Option.bind_eq_some_iff.mp hresult
      split at hresult
      · obtain ⟨⟨rest, host₁, s₂⟩, hrest, hresult⟩ := Option.bind_eq_some_iff.mp hresult
        cases hresult
        obtain ⟨-, hlength, heach⟩ := ih hrest
        refine ⟨List.cons_ne_nil _ _, Nat.succ_le_succ hlength, ?_⟩
        rw [sampleEach, hs₁]
        exact heach
      · cases hresult
        exact ⟨List.cons_ne_nil _ _, Nat.succ_le_succ (Nat.zero_le _), hone _ _ hs₁⟩

theorem acceptEach_elb (ids : List LlamaToken) (s : RollbackSampler α γ δ) :
    (ids.foldl (acceptToken env) s).elb = s.elb := by
  induction ids generalizing s with
  | nil => rfl
  | cons id ids ih =>
    rw [List.foldl_cons, ih]
    rfl

omit [Field α] [LinearOrder α] [FloorRing α] in
/-- Samplers with one history differ in their draws only. -/
theorem eq_iff_draws (h : s.toSamplerHistory = t.toSamplerHistory) :
    s = t ↔ s.toSamplerDraws = t.toSamplerDraws := by
  obtain ⟨history, draws⟩ := s
  obtain ⟨history', draws'⟩ := t
  replace h : history = history' := h
  subst h
  exact ⟨fun heq => congrArg RollbackSampler.toSamplerDraws heq, fun heq => congrArg _ heq⟩

/-- The draws of the sequential sampler are those from before when the places lose nothing. -/
theorem draws_eq_iff (hs : s.elb.active = false) {ps : List (Place α γ δ κ)}
    (hspec : SampledEach env s s.nValid ids ps t) :
    s.toSamplerDraws = t.toSamplerDraws ↔ NothingLost env s ps := by
  constructor
  · intro heq
    have hdraws := hspec.kept.mp
      ⟨(congrArg SamplerDraws.rng heq).symm, (congrArg SamplerDraws.adaptP heq).symm⟩
    have hmu : muOver env s ps = s.mirostatMu :=
      (hspec.mu hdraws).symm.trans (congrArg SamplerDraws.mirostatMu heq).symm
    have hnValid : (lastChecked env ps).getD s.nValid = s.nValid :=
      (hspec.nValid hdraws).symm.trans (congrArg SamplerDraws.nValid heq).symm
    refine ⟨hs, hdraws, fun htemp hmirostat => ?_, fun n hn => ?_⟩
    · rw [muOver, if_pos ⟨htemp, hmirostat⟩, sub_eq_self] at hmu
      exact mul_eq_zero.mp hmu
    · rw [Option.mem_def.mp hn] at hnValid
      exact hnValid
  · intro h
    obtain ⟨hrng, hadaptP⟩ := hspec.kept.mpr h.draws
    refine SamplerDraws.ext ?_ hadaptP.symm ?_ hrng.symm
    · rw [hspec.mu h.draws, muOver]
      split
      · rename_i hlearns
        rw [mul_eq_zero.mpr (h.mirostat hlearns.1 hlearns.2), sub_zero]
      · rfl
    · rw [hspec.nValid h.draws]
      cases hlast : lastChecked env ps with
      | none => rfl
      | some n => exact (h.nValid n hlast).symm

end

/-! ### Requests -/

/-- The engine of plain requests, which counts up from its seed. -/
def plainEngine : Host Rat Mt19937 where
  expf := plainHost.expf
  logf := plainHost.logf
  negInfinity := plainHost.negInfinity
  algos := plainHost.algos
  topkPartial := false
  rng := fun g => ((g.seed + g.drawn) % 17, g.next)
  rngMax := 16

/-- Three tokens, without a grammar, DRY or expiring biases. -/
def plainEnv : RollbackEnv Rat Unit Unit Unit where
  engine := plainEngine
  engine_next := fun _ => rfl
  samplers := ⟨fun _ => id, fun _ _ => id, fun _ _ => id, fun _ _ _ => id, fun _ => id,
    fun _ _ _ => id, fun _ => id, fun _ => id, fun _ _ c => (none, [], c),
    fun _ _ c => (none, 0, c)⟩
  nVocab := 3
  nlToken := -1
  grammarApply := fun _ => id
  grammarAccept := fun _ _ => ()
  dryAccept := fun _ _ => ()
  generatedText := []
  tokenToPiece := fun _ => []
  elbSample := fun s _ _ => ⟨none, (), s.params, s.toSamplerDraws, ⟨[], 0, false⟩⟩
  elbAcceptParams := fun _ params _ => params

/-- A request at a temperature of 1 that keeps the tokens within `minP` of the best one. -/
def plainState (minP : Rat) : RollbackSampler Rat Unit Unit where
  params := { plainParams 1 with minP := minP, samplersSequence := [.temperature, .minP] }
  grammar := none
  prev := []
  smpl := none
  rbudget := none
  serverBiases := none
  elb := ⟨(), [], 0, 0⟩
  mirostatMu := 10
  adaptP := none
  nValid := 0
  rng := ⟨1, 0⟩

/-- The sampler after a token at the first place of a draft. -/
def plainVerified (minP : Rat) (id : LlamaToken) : RollbackSampler Rat Unit Unit :=
  acceptToken plainEnv (commonSamplerSample plainEnv (plainState minP) () plainLogits).sampler id

end PxqLlama.Sampling
