import PxqLlama.Proofs.Sampling.Samplers
import PxqLlama.Proofs.Sampling.Scan
import Mathlib.Data.Rat.Floor

/-!
# `Proofs.Sampling.TopkRaw`: sampling from the window is sampling from all candidates

Both paths run the samplers of the request in its order, one over all candidates and one over the
window. Before the first `TOP_K` the window holds the largest of the candidates (`Before`), and from
there on the two are one list (`After`): what the gate lets stand in front of `TOP_K` changes all
logits alike or nothing.
-/

namespace PxqLlama.Sampling

open TopSelect

variable {α σ τ : Type}

/-! ### Behind `TOP_K` -/

/-- The same candidates, no more than `W`; the flags may differ where there is nothing to sort. -/
structure After (W : Nat) (c w : TokenDataArray α) : Prop where
  data : c.data = w.data
  sorted : c.sorted = true ∨ c.data.length < 2
  window : w.sorted = true
  le : c.data.length ≤ W

variable {n W : Nat}

variable {c : TokenDataArray α} {minKeep nVocab : Nat} {cs : CommonSampler α σ}
  {nlToken : LlamaToken}

variable {w : TokenDataArray α}

theorem after_take (hcw : After W c w) (n : Nat) :
    After W { c with data := c.data.take n } { w with data := w.data.take n } := by
  refine ⟨congrArg (List.take n) hcw.data, hcw.sorted.imp id fun hlen => ?_, hcw.window,
    ?_⟩
  · exact lt_of_le_of_lt (List.length_take_le' n c.data) hlen
  · exact (List.length_take_le' n c.data).trans hcw.le

variable [LinearOrder α]

/-- The loop over sorted candidates, for one or none. -/
theorem take_minPCut_of_lt {minLogit : α} {data : List (TokenData α)} (hlen : data.length < 2) :
    data.take (minPCut minLogit minKeep data.tail 1) = data := by
  match data, hlen with
  | [], _ => rfl
  | [d], _ => rfl

variable [Field α]

omit [LinearOrder α] in
theorem after_sampleTemp (hcw : After W c w) (temp : α) :
    After W (sampleTemp c temp) (sampleTemp w temp) := by
  refine ⟨?_, hcw.sorted.imp id fun hlen => ?_, hcw.window, ?_⟩
  · simp only [sampleTemp, hcw.data]
  · show (c.data.map _).length < 2
    rwa [List.length_map]
  · show (c.data.map _).length ≤ W
    rw [List.length_map]
    exact hcw.le

variable [FloorRing α]

theorem llamaSort_of_sorted (h : Host α σ) (hs : c.sorted = true ∨ c.data.length < 2) (k : Int) :
    llamaSort h c k = c := if_pos hs

/-- Softmax on the window leaves what it leaves on the whole row. -/
theorem after_softmax (hcw : After W c w) (h : Host α σ) (b : Bool) :
    After W (softmax h c b) (softmax h w b) := by
  have hc := llamaSort_of_sorted h hcw.sorted (-1)
  have hw := llamaSort_of_sorted h (Or.inl hcw.window) (-1)
  have hlen : (softmax h c b).data.length = c.data.length := by
    simp only [softmax, hc]
    split <;> simp only [List.length_map]
  refine ⟨?_, ?_, ?_, ?_⟩
  · simp only [softmax, hc, hw, hcw.data]
  · rw [hlen]
    simp only [softmax, hc]
    exact hcw.sorted
  · simp only [softmax, hw]
    exact hcw.window
  · rw [hlen]
    exact hcw.le

theorem after_sampleTopP (hcw : After W c w) (h : Host α σ) (p : α) (minKeep : Nat) :
    After W (sampleTopP h c p minKeep) (sampleTopP h w p minKeep) := by
  rw [sampleTopP, sampleTopP]
  split
  · exact hcw
  · have hsoft := after_softmax hcw h true
    have htake := after_take hsoft (topPCut p minKeep (softmax h c true).data 0 0)
    refine ⟨?_, htake.sorted, htake.window, htake.le⟩
    show (softmax h c true).data.take _ = _
    rw [hsoft.data]

/-- Min-p on the window leaves what it leaves on the whole row. -/
theorem after_sampleMinP (hcw : After W c w) (h : Host α σ) (p : α) (hkeep : 0 < minKeep) :
    After W (sampleMinP h c p minKeep) (sampleMinP h w p minKeep) := by
  have hc := llamaSort_of_sorted h hcw.sorted (-1)
  have hw := llamaSort_of_sorted h (Or.inl hcw.window) (-1)
  have hrunW : ∀ hsome : ¬ (p ≤ 0 ∨ w.data = []), sampleMinP h w p minKeep = { w with
      data := w.data.take (minPCut ((w.data.head?.map TokenData.logit).getD 0 + h.logf p) minKeep
        w.data.tail 1) } := by
    intro hsome
    rw [sampleMinP, if_neg hsome]
    simp only [hcw.window, hw, not_true_eq_false, false_and, if_false]
  by_cases hnone : p ≤ 0 ∨ c.data = []
  · have hnone' : p ≤ 0 ∨ w.data = [] := by rwa [← hcw.data]
    rw [sampleMinP, sampleMinP, if_pos hnone, if_pos hnone']
    exact hcw
  · have hnone' : ¬ (p ≤ 0 ∨ w.data = []) := by rwa [← hcw.data]
    rw [hrunW hnone', sampleMinP, if_neg hnone]
    dsimp only
    split
    · -- the unsorted way, with one candidate: it stays
      rename_i hway
      have hlen : c.data.length < 2 := hcw.sorted.resolve_left hway.1
      have hone : ∀ q : TokenData α → Bool, minKeep ≤ (c.data.filter q).length →
          c.data.filter q = c.data := by
        intro q hq
        have hle := List.length_filter_le q c.data
        exact List.Sublist.eq_of_length List.filter_sublist (by omega)
      refine ⟨?_, ?_, hcw.window, (List.length_filter_le _ _).trans hcw.le⟩
      · show c.data.filter _ = w.data.take _
        rw [hone _ hway.2, ← hcw.data, take_minPCut_of_lt hlen]
      · exact Or.inr (lt_of_le_of_lt (List.length_filter_le _ _) hlen)
    · rw [hc]
      have htake := after_take hcw (minPCut ((c.data.head?.map TokenData.logit).getD 0 + h.logf p)
        minKeep c.data.tail 1)
      refine ⟨?_, htake.sorted, hcw.window, htake.le⟩
      rw [hcw.data]

/-- A second `TOP_K` keeps what the first one has left. -/
theorem after_sampleTopK (hcw : After W c w) (h : Host α σ) {k : Int} (hk : 0 < k)
    (hW : (W : Int) ≤ max k minKeep) : sampleTopK h c k minKeep = c := by
  have hle := hcw.le
  have hsize : min (max k (minKeep : Int)) (c.data.length : Int) = (c.data.length : Nat) := by omega
  rw [sampleTopK]
  simp only [if_neg (not_le.2 hk), hsize, llamaSort_of_sorted h hcw.sorted, Int.toNat_natCast,
    List.take_length]

/-! ### In front of `TOP_K` -/

/-- The window has the largest of `n` candidates. -/
structure Before (n W : Nat) (c w : TokenDataArray α) : Prop where
  size : c.data.length = n
  top : IsTop TokenData.logit W c.data w.data
  distinct : (c.data.map TokenData.logit).Nodup
  sorted : c.sorted = true → Descending TokenData.logit c.data
  window : w.sorted = true

omit [Field α] [FloorRing α] in
/-- A single candidate is the window. -/
theorem Before.data_eq (hcw : Before n W c w) (hW : 0 < W) (hlen : c.data.length < 2) :
    c.data = w.data := by
  have hdesc : Descending TokenData.logit c.data := by
    match hdata : c.data, hlen with
    | [], _ => exact List.Pairwise.nil
    | [d], _ => exact List.pairwise_singleton _ d
  rw [hcw.top.eq_take hdesc (List.Perm.refl _) hcw.distinct, List.take_of_length_le (by omega)]

/-- Sorted candidates begin with the window. -/
theorem Before.take_llamaSort [IsStrictOrderedRing α] (hcw : Before n W c w) (hW : 0 < W)
    (h : Host α σ) (hle : W ≤ c.data.length) :
    (llamaSort h c W).data.take W = w.data ∧
      ((llamaSort h c W).sorted = true ∨ c.data.length < 2) := by
  by_cases hlen : c.data.length < 2
  · rw [llamaSort_of_sorted h (Or.inr hlen)]
    refine ⟨?_, Or.inr hlen⟩
    rw [List.take_of_length_le (by omega), hcw.data_eq hW hlen]
  · cases hs : c.sorted with
    | true =>
      rw [llamaSort_of_sorted h (Or.inl hs)]
      refine ⟨?_, Or.inl hs⟩
      exact (hcw.top.eq_take (hcw.sorted hs) (List.Perm.refl _) hcw.distinct).symm
    | false =>
      obtain ⟨htop, hflag⟩ := llamaSort_isTop h hs hlen hle
      exact ⟨htop.unique hcw.top hcw.distinct, Or.inl hflag⟩

/-- `TOP_K` takes the window out of the candidates. -/
theorem after_of_before [IsStrictOrderedRing α] (hcw : Before n W c w) (hW : 0 < W) (h : Host α σ)
    {k : Int} (hk : 0 < k) (hwidth : (W : Int) = min (max k minKeep) n) :
    After W (sampleTopK h c k minKeep) w := by
  rw [← hcw.size] at hwidth
  have hle : W ≤ c.data.length := by omega
  obtain ⟨hdata, hsorted⟩ := hcw.take_llamaSort hW h hle
  have hrun : sampleTopK h c k minKeep =
      { llamaSort h c W with data := (llamaSort h c W).data.take W } := by
    rw [sampleTopK]
    simp only [if_neg (not_le.2 hk), ← hwidth, Int.toNat_natCast]
  rw [hrun]
  refine ⟨hdata, hsorted.imp id fun hlen => ?_, hcw.window, ?_⟩
  · show ((llamaSort h c W).data.take W).length < 2
    rw [List.length_take]
    omega
  · exact List.length_take_le W _

omit [FloorRing α] in
theorem before_sampleTemp [IsStrictOrderedRing α] (hcw : Before n W c w) {temp : α}
    (htemp : 0 < temp) : Before n W (sampleTemp c temp) (sampleTemp w temp) := by
  have hmono : ∀ a b : TokenData α, b.logit ≤ a.logit → b.logit / temp ≤ a.logit / temp :=
    fun a b hab => div_le_div_of_nonneg_right hab htemp.le
  refine ⟨?_, hcw.top.map hmono, ?_, fun hs => ?_, hcw.window⟩
  · rw [← hcw.size]
    exact List.length_map _
  · have hlogits : (sampleTemp c temp).data.map TokenData.logit =
        (c.data.map TokenData.logit).map fun l => l / temp := by
      rw [sampleTemp, List.map_map, List.map_map]
      rfl
    rw [hlogits]
    exact hcw.distinct.map fun a b hab => (div_left_inj' htemp.ne').1 hab
  · exact List.pairwise_map.2 ((hcw.sorted hs).imp fun hab => hmono _ _ hab)

/-- The weights of candidates, over the largest logit. -/
def weigh (h : Host α σ) (maxL : α) (data : List (TokenData α)) : List (TokenData α) :=
  data.map fun d => { d with p := h.expf (d.logit - maxL) }

/-- The largest logit of sorted candidates. -/
def headLogit (data : List (TokenData α)) : α :=
  (data.head?.map TokenData.logit).getD 0

theorem sampleDist_eq (h : Host α σ) (c : TokenDataArray α) : sampleDist h c =
    { llamaSort h c (-1) with
      data := weigh h (headLogit (llamaSort h c (-1)).data) (llamaSort h c (-1)).data } := rfl

omit [FloorRing α] in
theorem map_logit_weigh (h : Host α σ) (maxL : α) (data : List (TokenData α)) :
    (weigh h maxL data).map TokenData.logit = data.map TokenData.logit := by
  rw [weigh, List.map_map]
  rfl

/-- The weights come after all candidates are sorted, and the window is where they begin. -/
theorem before_sampleDist [IsStrictOrderedRing α] (hcw : Before n W c w) (hW : 0 < W)
    (h : Host α σ) : Before n W (sampleDist h c) (sampleDist h w) := by
  have hsort : ∃ sorted, (llamaSort h c (-1)).data = sorted ∧ sorted.Perm c.data ∧
      Descending TokenData.logit sorted := by
    by_cases hlen : c.data.length < 2
    · refine ⟨c.data, by rw [llamaSort_of_sorted h (Or.inr hlen)], List.Perm.refl _, ?_⟩
      match hdata : c.data, hlen with
      | [], _ => exact List.Pairwise.nil
      | [d], _ => exact List.pairwise_singleton _ d
    · cases hs : c.sorted with
      | true =>
        exact ⟨c.data, by rw [llamaSort_of_sorted h (Or.inl hs)], List.Perm.refl _, hcw.sorted hs⟩
      | false =>
        obtain ⟨hdesc, hperm, -⟩ := llamaSort_all h hs hlen
        exact ⟨_, rfl, hperm, hdesc⟩
  obtain ⟨sorted, hsorted, hperm, hdesc⟩ := hsort
  have hwin : w.data = sorted.take W := hcw.top.eq_take hdesc hperm hcw.distinct
  have hhead : headLogit w.data = headLogit sorted := by
    rw [hwin, headLogit, headLogit]
    cases sorted with
    | nil => rw [List.take_nil]
    | cons d ds =>
      obtain ⟨W, rfl⟩ := Nat.exists_eq_succ_of_ne_zero hW.ne'
      rfl
  rw [sampleDist_eq, sampleDist_eq, hsorted, llamaSort_of_sorted h (Or.inl hcw.window), hhead]
  have hdesc' : Descending TokenData.logit (weigh h (headLogit sorted) sorted) :=
    List.pairwise_map.2 hdesc
  refine ⟨?_, ?_, ?_, fun _ => hdesc', hcw.window⟩
  · rw [← hcw.size, ← hperm.length_eq]
    exact List.length_map _
  · show IsTop TokenData.logit W (weigh h _ sorted) (weigh h _ w.data)
    have htop := hdesc'.isTop_take (List.Perm.refl _) W
    rwa [weigh, ← List.map_take, ← hwin] at htop
  · show ((weigh h _ sorted).map TokenData.logit).Nodup
    rw [map_logit_weigh]
    exact (hperm.map TokenData.logit).nodup_iff.2 hcw.distinct

/-! ### The samplers of a request -/

/-- All candidates and the window, before and behind the first `TOP_K`. -/
def Stage (n W : Nat) (seenTopK : Bool) (c w : TokenDataArray α) : Prop :=
  match seenTopK with
  | false => Before n W c w
  | true => After W c w

/-- What the gate asks for besides the samplers themselves. -/
structure Gated (cs : CommonSampler α σ) (n W : Nat) : Prop where
  adaptP : cs.hasAdaptPCtx = false
  dynatemp : ¬ 0 < cs.params.dynatempRange
  temp : 0 < cs.params.temp
  pos : 0 < W
  width : (W : Int) = min (max cs.params.topK (minKeepOf cs.params)) n

/-- One sampler of the request: another one that is served does nothing. -/
theorem stage_step [IsStrictOrderedRing α] (hgate : Gated cs n W) (h : Host α σ)
    (o : OtherSamplers α τ) {samplerType : SamplerType} {seen seen' : Bool}
    (hserved : pxaSamplerServed cs seen samplerType = some seen') (hcw : Stage n W seen c w)
    (other : τ) :
    ∃ c', queueStep h o cs (minKeepOf cs.params) (other, c) samplerType = (other, c') ∧
      Stage n W seen' c' (pxaChainStep h cs.params (minKeepOf cs.params) w samplerType) := by
  have hkeep : 0 < minKeepOf cs.params := by
    rw [minKeepOf]
    omega
  cases samplerType with
  | dry =>
    rw [pxaSamplerServed] at hserved
    split at hserved
    · cases hserved
    · rename_i hnoop
      cases hserved
      refine ⟨c, ?_, hcw⟩
      rw [queueStep, sampleDry, cs.dry_params]
      exact if_pos (not_not.1 hnoop)
  | topK =>
    rw [pxaSamplerServed] at hserved
    split at hserved
    · cases hserved
    · rename_i hk
      cases hserved
      refine ⟨_, rfl, ?_⟩
      cases seen with
      | false => exact after_of_before hcw hgate.pos h (not_le.1 hk) hgate.width
      | true =>
        have hwidth := hgate.width
        rw [after_sampleTopK hcw h (not_le.1 hk) (by omega)]
        exact hcw
  | topP =>
    rw [pxaSamplerServed] at hserved
    split at hserved
    · cases hserved
    · rename_i hp
      cases hserved
      refine ⟨_, rfl, ?_⟩
      cases seen with
      | false =>
        have hone : 1 ≤ cs.params.topP := not_lt.1 fun hlt => hp ⟨by decide, hlt⟩
        show Before n W (sampleTopP h c _ _) (sampleTopP h w _ _)
        rw [sampleTopP, sampleTopP, if_pos hone, if_pos hone]
        exact hcw
      | true => exact after_sampleTopP hcw h _ _
  | minP =>
    rw [pxaSamplerServed] at hserved
    split at hserved
    · cases hserved
    · rename_i hp
      cases hserved
      refine ⟨_, rfl, ?_⟩
      cases seen with
      | false =>
        have hzero : cs.params.minP ≤ 0 := not_lt.1 fun hlt => hp ⟨by decide, hlt⟩
        show Before n W (sampleMinP h c _ _) (sampleMinP h w _ _)
        rw [sampleMinP, sampleMinP, if_pos (Or.inl hzero), if_pos (Or.inl hzero)]
        exact hcw
      | true => exact after_sampleMinP hcw h _ hkeep
  | tfsZ =>
    rw [pxaSamplerServed] at hserved
    split at hserved
    · cases hserved
    · rename_i hz
      cases hserved
      exact ⟨c, if_pos (Or.inl (not_lt.1 hz)), hcw⟩
  | xtc =>
    rw [pxaSamplerServed] at hserved
    split at hserved
    · cases hserved
    · rename_i hnoop
      cases hserved
      exact ⟨c, if_pos ((not_not.1 hnoop).imp id Or.inl), hcw⟩
  | topNSigma =>
    rw [pxaSamplerServed] at hserved
    split at hserved
    · cases hserved
    · rename_i hsigma
      cases hserved
      exact ⟨c, if_pos (Or.inl (not_lt.1 hsigma)), hcw⟩
  | typicalP =>
    rw [pxaSamplerServed] at hserved
    split at hserved
    · cases hserved
    · rename_i hp
      cases hserved
      exact ⟨c, if_pos (not_lt.1 hp), hcw⟩
  | temperature =>
    cases hserved
    refine ⟨sampleTemp c cs.params.temp, if_neg hgate.dynatemp, ?_⟩
    cases seen with
    | false => exact before_sampleTemp hcw hgate.temp
    | true => exact after_sampleTemp hcw _
  | adaptiveP =>
    rw [pxaSamplerServed, hgate.adaptP] at hserved
    cases hserved
    exact ⟨c, rfl, hcw⟩
  | dist =>
    cases hserved
    refine ⟨_, rfl, ?_⟩
    cases seen with
    | false => exact before_sampleDist hcw hgate.pos h
    | true => exact after_softmax hcw h false

/-- The samplers of the chain, one after the other. -/
theorem stage_run [IsStrictOrderedRing α] (hgate : Gated cs n W) (h : Host α σ)
    (o : OtherSamplers α τ) {samplers : List SamplerType} {seen seen' : Bool}
    (hserved : samplers.foldlM (pxaSamplerServed cs) seen = some seen') (hcw : Stage n W seen c w)
    (other : τ) :
    ∃ c', samplers.foldl (queueStep h o cs (minKeepOf cs.params)) (other, c) = (other, c') ∧
      Stage n W seen' c' (samplers.foldl (pxaChainStep h cs.params (minKeepOf cs.params)) w) := by
  induction samplers generalizing seen c w with
  | nil =>
    cases hserved
    exact ⟨c, rfl, hcw⟩
  | cons samplerType samplers ih =>
    rw [List.foldlM_cons] at hserved
    obtain ⟨seen₁, hfirst, hrest⟩ := Option.bind_eq_some_iff.1 hserved
    obtain ⟨c₁, hstep, hcw₁⟩ := stage_step hgate h o hfirst hcw other
    rw [List.foldl_cons, List.foldl_cons, hstep]
    exact ih hrest hcw₁

/-! ### The two paths -/

/-- What a width says of the sampler and the request. -/
structure Served (cs : CommonSampler α σ) (nVocab W : Nat) : Prop where
  grammar : cs.grammar = none
  rbudget : ∀ ctx ∈ cs.rbudget, ctx.state ≠ .forcing
  elb : ¬ cs.elbIdx < cs.nElbStates
  mirostat : cs.params.mirostat = 0
  adaptP : cs.hasAdaptPCtx = false
  temp : 0 ≤ cs.params.temp
  dynatemp : ¬ 0 < cs.params.dynatempRange
  bias : ¬ (PenaltiesActive cs ∧ (activeBias cs nVocab).isSome)
  greedy : cs.params.temp = 0 → W = 1
  chain : cs.params.temp ≠ 0 →
    cs.params.samplersSequence.foldlM (pxaSamplerServed cs) false = some true ∧
      (W : Int) = min (max cs.params.topK (minKeepOf cs.params)) nVocab

omit [LinearOrder α] [Field α] [FloorRing α] in
theorem pos_of_ite {c : Prop} [Decidable c] {a : Nat} (h : 0 < if c then 0 else a) :
    ¬ c ∧ (if c then 0 else a) = a ∧ 0 < a := by
  by_cases hc : c
  · rw [if_pos hc] at h
    exact absurd h (Nat.lt_irrefl 0)
  · rw [if_neg hc] at h ⊢
    exact ⟨hc, rfl, h⟩

omit [FloorRing α] in
/-- Each early exit of the gate returns zero. -/
theorem served_of_window {ctxCfg grammarFirst : Bool}
    (hpos : 0 < pxaTopkRawWindow cs ctxCfg grammarFirst nVocab) :
    ctxCfg = false ∧ grammarFirst = false ∧
      Served cs nVocab (pxaTopkRawWindow cs ctxCfg grammarFirst nVocab) := by
  rw [pxaTopkRawWindow] at hpos ⊢
  obtain ⟨hfirst, hval₁, hpos⟩ := pos_of_ite hpos
  obtain ⟨hbudget, hval₂, hpos⟩ := pos_of_ite hpos
  obtain ⟨helb, hval₃, hpos⟩ := pos_of_ite hpos
  obtain ⟨hmirostat, hval₄, hpos⟩ := pos_of_ite hpos
  obtain ⟨hadapt, hval₅, hpos⟩ := pos_of_ite hpos
  obtain ⟨htemp, hval₆, hpos⟩ := pos_of_ite hpos
  obtain ⟨hdyn, hval₇, hpos⟩ := pos_of_ite hpos
  obtain ⟨hbias, hval₈, hpos⟩ := pos_of_ite hpos
  rw [hval₁, hval₂, hval₃, hval₄, hval₅, hval₆, hval₇, hval₈]
  rw [pxaTopkRawPenaltiesActive_iff] at hbias
  simp only [not_or, Bool.not_eq_true, Option.isSome_eq_false_iff, Option.isNone_iff_eq_none]
    at hfirst
  have hforced : ∀ ctx ∈ cs.rbudget, ctx.state ≠ .forcing := by
    intro ctx hctx hforcing
    rw [Option.mem_def.1 hctx] at hbudget
    exact hbudget (by simp [hforcing])
  refine ⟨hfirst.2.1, hfirst.1, hfirst.2.2, hforced, helb, not_not.1 hmirostat,
    Bool.eq_false_iff.2 hadapt, not_not.1 htemp, hdyn, hbias, fun hzero => ?_, fun hzero => ?_⟩
  · rw [if_pos hzero] at hpos ⊢
    exact (pos_of_ite hpos).2.1
  · rw [if_neg hzero] at hpos ⊢
    cases hchain : cs.params.samplersSequence.foldlM (pxaSamplerServed cs) false with
    | none => simp only [hchain, Nat.lt_irrefl] at hpos
    | some seen =>
      simp only [hchain] at hpos ⊢
      obtain ⟨hseen, hval, hpos⟩ := pos_of_ite hpos
      rw [hval]
      split at hpos
      · rename_i hwidth
        rw [if_pos hwidth, not_not.1 hseen]
        refine ⟨rfl, ?_⟩
        rw [minKeepOf]
        omega
      · exact absurd hpos (Nat.lt_irrefl 0)

/-- The newline has a server bias which the default path takes back, though the request has no
penalties. -/
def DropsNlBias (cs : CommonSampler α σ) (nVocab : Nat) (nlToken : LlamaToken) : Prop :=
  (penaltyTokensUsed cs ≠ 0 ∧ ¬ cs.params.penalizeNl ∧ nlToken ≠ llamaTokenNull) ∧
    ∃ biases token, activeBias cs nVocab = some biases ∧ token < nVocab ∧
      (token : Int) = nlToken ∧ biases.getD token 0 ≠ 0

omit [FloorRing α] in
/-- Both paths see the same logit of a token. -/
theorem biasedLogit_penalizeRow (hbias : ¬ (PenaltiesActive cs ∧ (activeBias cs nVocab).isSome))
    (hnl : ¬ DropsNlBias cs nVocab nlToken) (logits : Logits α) {token : Nat}
    (htoken : token < nVocab) :
    biasedLogit (activeBias cs nVocab) (pxaPenalizeRow cs nVocab nlToken logits).1 token =
      candidateLogit cs nVocab nlToken logits token := by
  have hrow := (pxaPenalizeRow_spec cs nVocab nlToken logits).1 token htoken
  rw [candidateLogit]
  by_cases hactive : PenaltiesActive cs
  · -- then there is no bias
    have hnone : activeBias cs nVocab = none := by
      rw [← Option.not_isSome_iff_eq_none]
      exact fun hsome => hbias ⟨hactive, hsome⟩
    rw [hnone, biasedLogit, biasedLogit, hrow]
    simp only [hactive, hactive.1, true_and, ne_eq, not_false_eq_true]
  · have hrow' : (pxaPenalizeRow cs nVocab nlToken logits).1 token = logits token := by
      rw [hrow, if_neg fun hex => hactive hex.1, requestLogit, if_neg hactive]
    rw [requestLogit, if_neg hactive]
    by_cases hexempt : penaltyTokensUsed cs ≠ 0 ∧ IsExempt cs nlToken token
    · rw [if_pos hexempt]
      cases hb : activeBias cs nVocab with
      | none => rw [biasedLogit, hrow', hexempt.2.2]
      | some biases =>
        have hzero : biases.getD token 0 = 0 := by
          by_contra hne
          exact hnl ⟨⟨hexempt.1, hexempt.2.1⟩, biases, token, hb, htoken, hexempt.2.2, hne⟩
        rw [biasedLogit, hrow', hzero, add_zero, hexempt.2.2]
    · rw [if_neg hexempt]
      cases hb : activeBias cs nVocab with
      | none => rw [biasedLogit, biasedLogit, hrow']
      | some biases => rw [biasedLogit, biasedLogit, hrow']

omit [FloorRing α] in
/-- The logits and ids that are scanned are those of the candidates. -/
theorem map_scanned (hbias : ¬ (PenaltiesActive cs ∧ (activeBias cs nVocab).isSome))
    (hnl : ¬ DropsNlBias cs nVocab nlToken) (logits : Logits α) :
    (((List.range nVocab).map fun i : Nat =>
      (biasedLogit (activeBias cs nVocab) (pxaPenalizeRow cs nVocab nlToken logits).1 i,
        (i : Int))).map fun e => (⟨e.2, e.1, 0⟩ : TokenData α)) =
      tokenRow nVocab (candidateLogit cs nVocab nlToken logits) := by
  rw [List.map_map, tokenRow]
  refine List.map_congr_left fun i hi => ?_
  have hlogit := biasedLogit_penalizeRow hbias hnl logits (List.mem_range.1 hi)
  exact congrArg (fun l => (⟨i, l, 0⟩ : TokenData α)) hlogit

/-- What the two calls leave alike besides their candidates. -/
structure SameSample (raw default : Sampled α σ τ) : Prop where
  token : raw.token = default.token
  rng : raw.rng = default.rng
  logits : raw.logits = default.logits
  softfailed : raw.softfailed = default.softfailed
  other : raw.other = default.other

/-- No two logits of the candidates are equal, behind the biases and the penalties. -/
def NoTies (o : OtherSamplers α τ) (cs : CommonSampler α σ) (nVocab : Nat) (nlToken : LlamaToken)
    (ctxCfg grammarFirst : Bool) (other : τ) (logits : Logits α) : Prop :=
  ((prepare o cs nVocab nlToken ctxCfg grammarFirst other logits).2.2.data.map
    TokenData.logit).Nodup

/-- The candidates of the default path. -/
def candidates (cs : CommonSampler α σ) (nVocab : Nat) (nlToken : LlamaToken) (logits : Logits α) :
    TokenDataArray α :=
  ⟨tokenRow nVocab (candidateLogit cs nVocab nlToken (applyLogitBias cs.params logits)), 0, false⟩

/-- The window of the raw path, before the samplers. -/
def rawWindow (hasAvx2 : Bool) (cs : CommonSampler α σ) (nVocab : Nat) (nlToken : LlamaToken)
    (W : Nat) (logits : Logits α) : TokenDataArray α :=
  let row := (pxaPenalizeRow cs nVocab nlToken (applyLogitBias cs.params logits)).1
  let w := pxaTopkScan hasAvx2 (biasedLogit (activeBias cs nVocab) row) nVocab { W := W }
  ⟨w.entries.map fun e => ⟨e.2, e.1, 0⟩, 0, true⟩

omit [FloorRing α] in
theorem rawWindow_data (hasAvx2 : Bool) {W : Nat} (hW : 0 < W) (logits : Logits α) :
    (rawWindow hasAvx2 cs nVocab nlToken W logits).data =
      (((List.range nVocab).map fun i : Nat => (biasedLogit (activeBias cs nVocab)
        (pxaPenalizeRow cs nVocab nlToken (applyLogitBias cs.params logits)).1 i,
          (i : Int))).foldl (TopSelect.push Prod.fst W) []).map
            fun e => (⟨e.2, e.1, 0⟩ : TokenData α) := by
  rw [rawWindow]
  exact congrArg _ (entries_pxaTopkScan hasAvx2 hW _ nVocab)

omit [FloorRing α] in
/-- The window has the largest candidates. -/
theorem before_rawWindow {W : Nat} (hserved : Served cs nVocab W) (hW : 0 < W)
    (hnl : ¬ DropsNlBias cs nVocab nlToken) (hasAvx2 : Bool) {logits : Logits α}
    (hdistinct : ((candidates cs nVocab nlToken logits).data.map TokenData.logit).Nodup) :
    Before nVocab W (candidates cs nVocab nlToken logits)
      (rawWindow hasAvx2 cs nVocab nlToken W logits) := by
  refine ⟨?_, ?_, hdistinct, fun hs => (by cases hs), rfl⟩
  · rw [candidates, tokenRow, List.length_map, List.length_range]
  · rw [rawWindow_data hasAvx2 hW, candidates, ← map_scanned hserved.bias hnl]
    have htop := @isTop_foldl_push (α × Int) α _ Prod.fst W hW
    have hsame : ∀ a b : α × Int, b.1 ≤ a.1 →
        (⟨b.2, b.1, 0⟩ : TokenData α).logit ≤ (⟨a.2, a.1, 0⟩ : TokenData α).logit :=
      fun a b hab => hab
    exact (htop _).map hsame

omit [FloorRing α] in
/-- A window of one is the candidate that the greedy sampler takes. -/
theorem rawWindow_one {W : Nat} (hserved : Served cs nVocab W)
    (hnl : ¬ DropsNlBias cs nVocab nlToken) (hasAvx2 : Bool) (logits : Logits α) :
    (rawWindow hasAvx2 cs nVocab nlToken 1 logits).data =
      (maxElement (candidates cs nVocab nlToken logits).data).toList := by
  rw [rawWindow_data hasAvx2 Nat.one_pos, foldl_push_one, candidates,
    ← map_scanned hserved.bias hnl]
  have hfirst := @firstMax_map (α × Int) α _ Prod.fst (TokenData α) TokenData.logit
    (fun e => ⟨e.2, e.1, 0⟩) (fun _ => rfl)
    ((List.range nVocab).map fun i : Nat => (biasedLogit (activeBias cs nVocab)
      (pxaPenalizeRow cs nVocab nlToken (applyLogitBias cs.params logits)).1 i, (i : Int)))
  have hmax : ∀ data : List (TokenData α), maxElement data = firstMax TokenData.logit data := by
    rintro (_ | ⟨d, ds⟩) <;> rfl
  rw [hmax, hfirst]
  exact Option.toList_map.symm

/-- The raw path, from its window. -/
theorem pxaTopkRawSample_eq (h : Host α σ) (hasAvx2 : Bool) (cs : CommonSampler α σ) (nVocab : Nat)
    (nlToken : LlamaToken) (W : Nat) (other : τ) (logits : Logits α) :
    pxaTopkRawSample h hasAvx2 cs nVocab nlToken W other logits =
      let curP := rawWindow hasAvx2 cs nVocab nlToken W logits
      let row := applyLogitBias cs.params logits
      if cs.params.temp = 0 then ⟨sampleTokenGreedy curP, curP, cs.rng, row, false, other⟩
      else
        let curP := cs.params.samplersSequence.foldl
          (pxaChainStep h cs.params (minKeepOf cs.params)) curP
        let sampled := sampleTokenWithRng h curP cs.rng
        ⟨sampled.1, curP, sampled.2.1, row, sampled.2.2, other⟩ := by
  have hrow := (pxaPenalizeRow_spec cs nVocab nlToken (applyLogitBias cs.params logits)).2.foldl
  rw [pxaTopkRawSample]
  dsimp only
  rw [hrow]
  rfl

/-- The default path of a request that is served, from its candidates. -/
theorem sampleImplDefault_eq (h : Host α σ) (o : OtherSamplers α τ) {W : Nat}
    (hserved : Served cs nVocab W) (nlToken : LlamaToken) (other : τ) (logits : Logits α) :
    sampleImplDefault h o cs nVocab nlToken false false other logits =
      let curP := candidates cs nVocab nlToken logits
      let row := applyLogitBias cs.params logits
      if cs.params.temp = 0 then ⟨sampleTokenGreedy curP, curP, cs.rng, row, false, other⟩
      else
        let c := cs.params.samplersSequence.foldl (queueStep h o cs (minKeepOf cs.params))
          (other, curP)
        let sampled := sampleTokenWithRng h c.2 cs.rng
        ⟨sampled.1, c.2, sampled.2.1, row, sampled.2.2, c.1⟩ := by
  have hgrammar := hserved.grammar
  have hbudget : ∀ curP : TokenDataArray α, reasoningBudgetApply h cs.rbudget curP = curP := by
    intro curP
    cases hctx : cs.rbudget with
    | none => rfl
    | some ctx =>
      show (if ctx.state ≠ .forcing then curP else _) = curP
      exact if_pos (hserved.rbudget ctx hctx)
  have hqueue : ∀ c : τ × TokenDataArray α, samplerQueue h o cs (minKeepOf cs.params) c =
      cs.params.samplersSequence.foldl (queueStep h o cs (minKeepOf cs.params)) c := by
    intro c
    rw [samplerQueue, hserved.adaptP]
    exact if_neg fun hno => absurd hno.2 (by decide)
  have honce : sampleImplDefault h o cs nVocab nlToken false false other logits =
      sampleOnce h o cs nVocab nlToken false false other logits := by
    rw [sampleImplDefault, hgrammar]
  rw [honce, sampleOnce, prepare_eq o hserved.elb hgrammar]
  have hmirostat : ¬ ((0 : Int) = 1 ∨ (0 : Int) = 2) := by decide
  simp only [hbudget, hgrammar, if_neg (not_lt.2 hserved.temp), hserved.mirostat, hserved.adaptP,
    if_neg hmirostat, Bool.false_eq_true, and_false, if_false, hqueue]
  rfl

/-- The raw path samples what the default path samples. A greedy request keeps one candidate where
the default path keeps all, and the newline is left out whose server bias the default path drops. -/
theorem pxaTopkRaw_agrees [IsStrictOrderedRing α] (h : Host α σ) (o : OtherSamplers α τ)
    (cs : CommonSampler α σ) (nVocab : Nat) (nlToken : LlamaToken)
    (ctxCfg grammarFirst hasAvx2 : Bool) :
    (∀ (W : Nat) (x : Nat → α) (n : Nat), 0 < W →
      pxaTopkScanAvx2 x n { W := W } = pxaTopkScanScalar x n 0 { W := W }) ∧
    ∀ W, pxaTopkRawWindow cs ctxCfg grammarFirst nVocab = W → 0 < W →
      ¬ DropsNlBias cs nVocab nlToken → ∀ (other : τ) (logits : Logits α),
        let raw := pxaTopkRawSample h hasAvx2 cs nVocab nlToken W other logits
        let default := sampleImplDefault h o cs nVocab nlToken ctxCfg grammarFirst other logits
        (cs.params.temp = 0 →
          SameSample raw default ∧ raw.curP.data = (maxElement default.curP.data).toList) ∧
        (cs.params.temp ≠ 0 →
          NoTies o cs nVocab nlToken ctxCfg grammarFirst other logits →
            SameSample raw default ∧ raw.curP.data = default.curP.data) := by
  refine ⟨fun W x n hW => pxaTopkScanAvx2_eq (good_empty hW) x n, ?_⟩
  rintro W rfl hW hnl other logits
  obtain ⟨rfl, rfl, hserved⟩ := served_of_window hW
  intro raw default
  constructor
  · intro hzero
    have hone := rawWindow_one hserved hnl hasAvx2 logits
    have hraw : raw = ⟨sampleTokenGreedy (rawWindow hasAvx2 cs nVocab nlToken 1 logits),
        rawWindow hasAvx2 cs nVocab nlToken 1 logits, cs.rng, applyLogitBias cs.params logits,
        false, other⟩ := by
      show pxaTopkRawSample h hasAvx2 cs nVocab nlToken _ other logits = _
      rw [hserved.greedy hzero, pxaTopkRawSample_eq]
      exact if_pos hzero
    have hdefault : default = ⟨sampleTokenGreedy (candidates cs nVocab nlToken logits),
        candidates cs nVocab nlToken logits, cs.rng, applyLogitBias cs.params logits, false,
        other⟩ := (sampleImplDefault_eq h o hserved nlToken other logits).trans (if_pos hzero)
    rw [hraw, hdefault]
    refine ⟨⟨?_, rfl, rfl, rfl, rfl⟩, hone⟩
    show sampleTokenGreedy _ = sampleTokenGreedy _
    rw [sampleTokenGreedy, sampleTokenGreedy, hone]
    cases maxElement (candidates cs nVocab nlToken logits).data <;> rfl
  · intro hne hties
    have hdistinct : ((candidates cs nVocab nlToken logits).data.map TokenData.logit).Nodup := by
      rwa [NoTies, prepare_eq o hserved.elb hserved.grammar] at hties
    obtain ⟨hchain, hwidth⟩ := hserved.chain hne
    have hgate : Gated cs nVocab (pxaTopkRawWindow cs false false nVocab) :=
      ⟨hserved.adaptP, hserved.dynatemp, lt_of_le_of_ne hserved.temp (Ne.symm hne), hW, hwidth⟩
    have hbefore := before_rawWindow hserved hW hnl hasAvx2 hdistinct
    obtain ⟨c, hrun, hafter⟩ := stage_run hgate h o hchain
      (show Stage nVocab _ false _ _ from hbefore) other
    have hdata : c.data = _ := After.data hafter
    have hsampled : sampleTokenWithRng h c cs.rng = sampleTokenWithRng h
        (cs.params.samplersSequence.foldl (pxaChainStep h cs.params (minKeepOf cs.params))
          (rawWindow hasAvx2 cs nVocab nlToken (pxaTopkRawWindow cs false false nVocab) logits))
            cs.rng := by
      simp only [sampleTokenWithRng, hdata]
    have hraw := (pxaTopkRawSample_eq h hasAvx2 cs nVocab nlToken
      (pxaTopkRawWindow cs false false nVocab) other logits).trans (if_neg hne)
    have hdefault := (sampleImplDefault_eq h o hserved nlToken other logits).trans (if_neg hne)
    rw [hrun] at hdefault
    dsimp only at hdefault hraw
    rw [hsampled] at hdefault
    show SameSample (pxaTopkRawSample _ _ _ _ _ _ _ _) (sampleImplDefault _ _ _ _ _ _ _ _ _) ∧
      (pxaTopkRawSample _ _ _ _ _ _ _ _).curP.data = (sampleImplDefault _ _ _ _ _ _ _ _ _).curP.data
    rw [hraw, hdefault]
    exact ⟨⟨rfl, rfl, rfl, rfl, rfl⟩, hdata.symm⟩

/-! ### Requests -/

/-- A request for the largest logits, of a temperature. -/
def plainParams (temp : Rat) : SamplingParams Rat where
  minKeep := 0
  topK := 2
  topP := 19 / 20
  minP := 1 / 20
  tfsZ := 1
  typicalP := 1
  temp := temp
  dynatempRange := 0
  dynatempExponent := 1
  penaltyLastN := 64
  penaltyRepeat := 1
  penaltyFreq := 0
  penaltyPresent := 0
  dryMultiplier := 0
  dryBase := 7 / 4
  dryPenaltyLastN := -1
  mirostat := 0
  mirostatTau := 5
  mirostatEta := 1 / 10
  xtcProbability := 0
  xtcThreshold := 1
  topNSigma := 0
  adaptiveTarget := -1
  nPrev := 64
  nProbs := 0
  penalizeNl := false
  samplersSequence := [.dry, .temperature, .topK, .topP, .minP, .dist]
  logitBias := []
  penaltyPromptTokens := []
  usePenaltyPromptTokens := false
  grammarLazy := false

def plainSampler (temp : Rat) : CommonSampler Rat Nat where
  params := plainParams temp
  grammar := none
  prev := []
  smpl := ⟨0, 7 / 4, -1⟩
  hasAdaptPCtx := false
  rbudget := none
  rng := 1
  serverBiases := none
  nElbStates := 0
  elbIdx := 0
  dry_params := rfl

/-- A linear congruential engine, and the first terms of the exponential series. -/
def plainHost : Host Rat Nat where
  expf := fun x => 1 + x + x ^ 2 / 2
  logf := fun x => x - 1
  negInfinity := -fltMax
  algos := mergeSorts TokenData.logit
  topkPartial := false
  rng := fun s => (s * 5 % 17, s * 5 % 17)
  rngMax := 16

def plainOthers : OtherSamplers Rat Unit :=
  ⟨id, fun _ _ => id, fun _ _ => id, fun _ _ _ => id, fun _ => id, fun _ _ _ => id, id, id,
    fun c => (none, c), fun _ _ _ c => (none, c), id, id⟩

/-- The logits 1, 3 and 2. -/
def plainLogits : Logits Rat := fun i => if i = 0 then 1 else if i = 1 then 3 else 2

theorem not_dropsNlBias_plainSampler (temp : Rat) : ¬ DropsNlBias (plainSampler temp) 3 (-1) := by
  rintro ⟨⟨-, -, hnl⟩, -⟩
  exact hnl rfl

theorem noTies_plainSampler (temp : Rat) :
    NoTies plainOthers (plainSampler temp) 3 (-1) false false () plainLogits := by
  rw [NoTies, prepare_eq plainOthers (Nat.lt_irrefl 0) rfl]
  show [plainLogits 0, plainLogits 1, plainLogits 2].Nodup
  decide

theorem pxaTopkRaw_agrees_plain :
    (pxaTopkRawSample plainHost true (plainSampler 1) 3 (-1) 2 () plainLogits).curP.data =
      (sampleImplDefault plainHost plainOthers (plainSampler 1) 3 (-1) false false ()
        plainLogits).curP.data := by
  have h := (pxaTopkRaw_agrees plainHost plainOthers (plainSampler 1) 3 (-1) false false true).2 2
    (by decide) (by decide) (not_dropsNlBias_plainSampler 1) () plainLogits
  exact (h.2 (by decide) (noTies_plainSampler 1)).2

/-- The window of a greedy request is not that of the default path. -/
theorem window_ne_of_greedy :
    0 < pxaTopkRawWindow (plainSampler 0) false false 3 ∧
      NoTies plainOthers (plainSampler 0) 3 (-1) false false () plainLogits ∧
        (pxaTopkRawSample plainHost true (plainSampler 0) 3 (-1)
            (pxaTopkRawWindow (plainSampler 0) false false 3) () plainLogits).curP.data ≠
          (sampleImplDefault plainHost plainOthers (plainSampler 0) 3 (-1) false false ()
            plainLogits).curP.data := by
  refine ⟨by decide, noTies_plainSampler 0, ?_⟩
  have hW : pxaTopkRawWindow (plainSampler 0) false false 3 = 1 := by decide
  rw [hW]
  decide

end PxqLlama.Sampling
