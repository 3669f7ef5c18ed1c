import PxqLlama.Grammar.Parser

/-!
# `Proofs.Grammar.Parser`: how much work a parse does

Every function of the parser goes forward in the text, so the fuel of its loops is enough and a
parse ends with an answer (`parse_ends`). A repetition that passes the checks has numbers below
`MAX_REPETITION_THRESHOLD`, and at most `2 ^ 32 - 1` rules for its item, so the product that is
checked does not wrap (`Call.Passed.product_eq`).

The checks look at one of the two bounds, and not at which of them is larger. With `n < m` in
`{m,n}` the difference wraps, and the loop that makes rules has almost `2 ^ 64` rounds
(`Call.Passed.bounded_iff`).
-/

namespace PxqLlama.Grammar.Parser

/-! ### Repetitions -/

namespace Call

/-- The repetition makes a bounded number of copies and rules, and no number of it wraps. -/
structure Bounded (c : Call) : Prop where
  work : c.copies + c.nOpt ≤ MAX_REPETITION_THRESHOLD
  difference : c.noMax = false → (c.nOpt : Int) = c.maxTimes - c.minTimes
  product : c.product = c.nPrevRules * c.totalRules

/-- `{m,n}` with `n < m`. -/
def Reversed (c : Call) : Prop := c.noMax = false ∧ c.maxTimes < c.minTimes

/-- What the parser has checked of a repetition that it expands. -/
structure Passed (c : Call) : Prop where
  prev_pos : 1 ≤ c.nPrevRules
  prev_lt : c.nPrevRules < 2 ^ 32
  min_le : c.minTimes ≤ MAX_REPETITION_THRESHOLD
  max_le : c.maxTimes = UINT64_MAX ∨ c.maxTimes ≤ MAX_REPETITION_THRESHOLD
  product_lt : c.product < MAX_REPETITION_THRESHOLD

variable {c : Call}

theorem totalRules_pos : 1 ≤ c.totalRules := by
  unfold totalRules
  split
  · rename_i h
    simp only [Bool.and_eq_true, decide_eq_true_eq] at h
    exact h.2
  · split
    · assumption
    · exact Nat.le_refl 1

theorem totalRules_le (hmin : c.minTimes ≤ MAX_REPETITION_THRESHOLD)
    (hmax : c.maxTimes = UINT64_MAX ∨ c.maxTimes ≤ MAX_REPETITION_THRESHOLD) :
    c.totalRules ≤ MAX_REPETITION_THRESHOLD := by
  unfold totalRules
  split
  · rename_i h
    simp only [noMax, Bool.and_eq_true, Bool.not_eq_true', decide_eq_false_iff_not] at h
    exact hmax.resolve_left h.1
  · split
    · exact hmin
    · exact Nat.succ_le_succ (Nat.zero_le 1999)

theorem product_eq (hprev : c.nPrevRules < 2 ^ 32) (hmin : c.minTimes ≤ MAX_REPETITION_THRESHOLD)
    (hmax : c.maxTimes = UINT64_MAX ∨ c.maxTimes ≤ MAX_REPETITION_THRESHOLD) :
    c.product = c.nPrevRules * c.totalRules := by
  have hle := Nat.mul_le_mul (Nat.le_of_lt hprev) (totalRules_le hmin hmax)
  have hsmall : 2 ^ 32 * MAX_REPETITION_THRESHOLD < 2 ^ 64 := by decide
  exact Nat.mod_eq_of_lt (Nat.lt_of_le_of_lt hle hsmall)

/-- The number of rules that a repetition counts for the next one is positive. -/
theorem Passed.product_pos (h : c.Passed) : 1 ≤ c.product := by
  rw [product_eq h.prev_lt h.min_le h.max_le]
  exact Nat.mul_pos h.prev_pos totalRules_pos

theorem Passed.totalRules_lt (h : c.Passed) : c.totalRules < MAX_REPETITION_THRESHOLD := by
  have hlt := h.product_lt
  rw [product_eq h.prev_lt h.min_le h.max_le] at hlt
  exact Nat.lt_of_le_of_lt (Nat.le_mul_of_pos_left _ h.prev_pos) hlt

/-- A repetition that passed is bounded exactly when its bounds are in order. -/
theorem Passed.bounded_iff (h : c.Passed) : c.Bounded ↔ ¬ c.Reversed := by
  have hmin := h.min_le
  have hmax := h.max_le
  have htotal := h.totalRules_lt
  simp only [MAX_REPETITION_THRESHOLD] at hmin hmax htotal
  constructor
  · rintro hb ⟨hno, hlt⟩
    have hdiff := hb.difference hno
    omega
  · intro hr
    refine ⟨?_, fun hno => ?_, product_eq h.prev_lt h.min_le h.max_le⟩
    · show c.minTimes - 1 + c.nOpt ≤ 2000
      cases hno : c.noMax with
      | true =>
        -- The loop has one round, and `total_rules` is `m`.
        rw [totalRules, hno] at htotal
        rw [nOpt, hno, if_pos rfl]
        simp only [Bool.not_true, Bool.false_and, Bool.false_eq_true, if_false] at htotal
        split at htotal
        · omega
        · omega
      | false =>
        have hle : c.minTimes ≤ c.maxTimes := Nat.le_of_not_lt fun hlt => hr ⟨hno, hlt⟩
        have hne : c.maxTimes ≠ UINT64_MAX := by simpa [noMax] using hno
        rw [nOpt, hno]
        simp only [Bool.false_eq_true, if_false]
        omega
    · have hle : c.minTimes ≤ c.maxTimes := Nat.le_of_not_lt fun hlt => hr ⟨hno, hlt⟩
      have hne : c.maxTimes ≠ UINT64_MAX := by simpa [noMax] using hno
      rw [nOpt, hno]
      simp only [Bool.false_eq_true, if_false]
      omega

end Call

/-! ### Going forward in the text -/

variable {pos src : Text} {seq : Sequence}

theorem tail_length (h : peek pos ≠ 0) : pos.tail.length < pos.length := by
  cases pos with
  | nil => exact absurd rfl h
  | cons c pos => exact Nat.lt_succ_self _

theorem continuation_length (len value : Nat) (pos : Text) :
    (continuation len value pos).2.length ≤ pos.length := by
  fun_induction continuation len value pos with
  | case1 => exact Nat.le_refl _
  | case2 len value c pos hc ih => exact Nat.le_succ_of_le ih
  | case3 => exact Nat.le_refl _

theorem hexLoop_length {size value : Nat} {parsed : Nat × Text}
    (h : hexLoop size value pos = some parsed) : parsed.2.length ≤ pos.length := by
  induction size generalizing value pos with
  | zero =>
    cases h
    exact Nat.le_refl _
  | succ size ih =>
    obtain ⟨digit, -, hrest⟩ := Option.bind_eq_some_iff.mp h
    have htail := ih hrest
    rw [List.length_tail] at htail
    omega

theorem spaceLoop_length (newlineOk comment : Bool) (pos : Text) :
    (spaceLoop newlineOk comment pos).length ≤ pos.length := by
  induction pos generalizing comment with
  | nil => exact Nat.le_of_eq (by rw [spaceLoop])
  | cons c pos ih =>
    rw [spaceLoop]
    split
    · exact Nat.le_succ_of_le (ih true)
    · split
      · exact Nat.le_succ_of_le (ih true)
      · split
        · exact Nat.le_succ_of_le (ih false)
        · exact Nat.le_refl _

theorem parseSpace_length (src : Text) (newlineOk : Bool) :
    (parseSpace src newlineOk).length ≤ src.length :=
  spaceLoop_length newlineOk false src

theorem dropWhile_length {p : UInt8 → Bool} (h0 : p 0 = false) (h : p (peek src) = true) :
    (src.dropWhile p).length < src.length := by
  cases src with
  | nil =>
    have hfalse : p (peek []) = false := h0
    rw [h] at hfalse
    cases hfalse
  | cons c src =>
    have hc : p c = true := h
    rw [List.dropWhile_cons, if_pos hc]
    exact Nat.lt_succ_of_le (List.dropWhile_suffix p).length_le

/-! ### What every function keeps -/

def Stop.Thrown : Stop → Prop
  | .thrown _ => True
  | _ => False

/-- The repetitions that were expanded have passed the checks. -/
def Logged (p : GrammarParser) : Prop := ∀ c ∈ p.expanded, c.Passed

/-- From a logged parser to one, with a result that has `post`; it stops with an exception only. -/
abbrev Safe {α : Type} (m : ParseM α) (post : α → Prop) : Prop := Keeps Logged m post Stop.Thrown

theorem expect_safe (holds : Bool) (what : String) :
    Safe (expect holds what) fun _ => holds = true := by
  cases holds with
  | true => exact Keeps.pure rfl
  | false => exact Keeps.throw trivial

theorem onTables_safe {α : Type} (f : Tables → α × Tables) : Safe (onTables f) fun _ => True := by
  refine Keeps.get.bind fun p hp => ?_
  exact (Keeps.set hp).bind fun _ _ => Keeps.pure trivial

/-- What is read has at least one character, and goes no further than the text. -/
abbrev Reads {α : Type} (m : ParseM (α × Text)) (src : Text) : Prop :=
  Safe m fun r => r.2.length < src.length

theorem parseHex_reads (h : pos.length < src.length) (size : Nat) :
    Reads (parseHex pos size) src := by
  unfold parseHex
  split
  · rename_i parsed hparsed
    exact Keeps.pure (Nat.lt_of_le_of_lt (hexLoop_length hparsed) h)
  · exact Keeps.throw trivial

theorem parseChar_reads (h : peek src ≠ 0) : Reads (parseChar src) src := by
  have hone : (src.drop 2).length < src.length := by
    have htail := tail_length h
    rw [List.length_drop]
    omega
  unfold parseChar
  refine Keeps.ite (fun _ => ?_) fun _ => Keeps.ite (fun _ => ?_) fun _ => Keeps.throw trivial
  · refine Keeps.ite (fun _ => parseHex_reads hone 2) fun _ => ?_
    refine Keeps.ite (fun _ => parseHex_reads hone 4) fun _ => ?_
    refine Keeps.ite (fun _ => parseHex_reads hone 8) fun _ => ?_
    refine Keeps.ite (fun _ => Keeps.pure hone) fun _ => ?_
    refine Keeps.ite (fun _ => Keeps.pure hone) fun _ => ?_
    refine Keeps.ite (fun _ => Keeps.pure hone) fun _ => ?_
    exact Keeps.ite (fun _ => Keeps.pure hone) fun _ => Keeps.throw trivial
  · exact Keeps.pure (Nat.lt_of_le_of_lt (continuation_length _ _ _) (tail_length h))

theorem parseName_reads (src : Text) : Reads (parseName src) src :=
  (expect_safe _ _).bind fun _ h => Keeps.pure (dropWhile_length (by decide) h)

theorem parseInt_reads (src : Text) : Reads (parseInt src) src :=
  (expect_safe _ _).bind fun _ h => Keeps.pure (dropWhile_length (by decide) h)

theorem stoull_safe (digits : Text) : Safe (stoull digits) fun _ => True :=
  (expect_safe _ _).bind fun _ _ => Keeps.pure trivial

theorem parseToken_reads (vocab : Option (Text → List Nat)) (src : Text) :
    Reads (parseToken vocab src) src := by
  refine (expect_safe _ _).bind fun _ hopen => ?_
  have htail : src.tail.length < src.length := by
    apply tail_length
    rw [of_decide_eq_true hopen]
    decide
  refine Keeps.ite (fun _ => ?_) fun _ => ?_
  · refine (parseInt_reads _).bind fun r hr => ?_
    obtain ⟨digits, pos⟩ := r
    refine (stoull_safe digits).bind fun _ _ => ?_
    refine (expect_safe _ _).bind fun _ _ => (expect_safe _ _).bind fun _ _ => Keeps.pure ?_
    simp only [List.length_drop] at hr ⊢
    omega
  · cases vocab with
    | none => exact Keeps.throw trivial
    | some tokenize =>
      refine (expect_safe _ _).bind fun _ _ => ?_
      split
      · refine Keeps.pure ?_
        simp only [List.length_tail, List.length_drop] at htail ⊢
        omega
      · exact Keeps.throw trivial

theorem parseMax_safe (pos : Text) (nested : Bool) :
    Safe (parseMax pos nested) fun r => r.2.length ≤ pos.length := by
  refine Keeps.ite (fun _ => ?_) fun _ => Keeps.pure (Nat.le_refl _)
  refine (parseInt_reads pos).bind fun r hr => (stoull_safe r.1).bind fun _ _ => Keeps.pure ?_
  have hspace := parseSpace_length r.2 nested
  show (parseSpace r.2 nested).length ≤ pos.length
  omega

/-- Reading the bounds never goes back in the text. -/
theorem parseBounds_safe (pos : Text) (nested : Bool) :
    Safe (parseBounds pos nested) fun r => r.2.length ≤ pos.length := by
  refine (expect_safe _ _).bind fun _ _ => (parseInt_reads pos).bind fun r hr => ?_
  obtain ⟨digits, rest⟩ := r
  refine (stoull_safe digits).bind fun minTimes _ => ?_
  have hrest : (parseSpace (parseSpace rest nested).tail nested).length ≤ pos.length := by
    have hspace := parseSpace_length rest nested
    have hbehind := parseSpace_length (parseSpace rest nested).tail nested
    rw [List.length_tail] at hbehind
    change rest.length < pos.length at hr
    omega
  refine Keeps.ite (fun _ => Keeps.pure hrest) fun _ => ?_
  refine (expect_safe _ _).bind fun _ _ => (parseMax_safe _ nested).bind fun r hr => ?_
  refine (expect_safe _ _).bind fun _ _ => Keeps.pure ?_
  have hspace := parseSpace_length r.2.tail nested
  rw [List.length_tail] at hspace
  exact Nat.le_trans hspace (Nat.le_trans (Nat.sub_le _ _) (Nat.le_trans hr hrest))

theorem literalRound_safe (n : Nat) (v : Rule × Text) (hv : v.2.length ≤ n) :
    Safe (literalRound v) (Sum.elim (fun v' => v'.2.length ≤ n ∧ v'.2.length < v.2.length)
      fun v' => v'.2.length ≤ n) := by
  refine Keeps.ite (fun _ => Keeps.pure hv) fun _ => ?_
  refine (expect_safe _ _).bind fun _ hmore => ?_
  refine (parseChar_reads (of_decide_eq_true hmore)).bind fun r hr => Keeps.pure ?_
  exact ⟨Nat.le_trans (Nat.le_of_lt hr) hv, hr⟩

theorem classRound_safe (startType : Gretype) (n : Nat) (v : Rule × Text) (hv : v.2.length ≤ n) :
    Safe (classRound startType v) (Sum.elim (fun v' => v'.2.length ≤ n ∧ v'.2.length < v.2.length)
      fun v' => v'.2.length ≤ n) := by
  refine Keeps.ite (fun _ => Keeps.pure hv) fun _ => ?_
  refine (expect_safe _ _).bind fun _ hmore => ?_
  refine (parseChar_reads (of_decide_eq_true hmore)).bind fun r hr => ?_
  obtain ⟨c, pos⟩ := r
  change pos.length < v.2.length at hr
  refine Keeps.ite (fun _ => ?_) fun _ => Keeps.pure ⟨Nat.le_trans (Nat.le_of_lt hr) hv, hr⟩
  refine (expect_safe _ _).bind fun _ hupper => ?_
  refine (parseChar_reads (of_decide_eq_true hupper)).bind fun r' hr' => Keeps.pure ?_
  rw [List.length_tail] at hr'
  show r'.2.length ≤ n ∧ r'.2.length < v.2.length
  omega

/-! ### Sequences -/

/-- The rules that are counted for the last item. -/
def Sequence.Counted (seq : Sequence) : Prop := 1 ≤ seq.nPrevRules ∧ seq.nPrevRules < 2 ^ 32

/-- A round of the loop over a sequence goes forward. -/
def Round (n : Nat) (seq : Sequence) : Sequence ⊕ Sequence → Prop :=
  Sum.elim (fun s => (s.Counted ∧ s.pos.length ≤ n) ∧ s.pos.length < seq.pos.length)
    fun s => s.Counted ∧ s.pos.length ≤ n

/-- A repetition within the threshold adds a bounded number of elements. -/
theorem handleRepetitions_safe (ruleName : Text) {seq : Sequence} {minTimes maxTimes : Nat}
    (hseq : seq.Counted) (hmin : minTimes ≤ MAX_REPETITION_THRESHOLD)
    (hmax : maxTimes = UINT64_MAX ∨ maxTimes ≤ MAX_REPETITION_THRESHOLD) :
    Safe (handleRepetitions ruleName seq minTimes maxTimes) fun seq' =>
      seq'.Counted ∧ seq'.pos = seq.pos := by
  refine (expect_safe _ _).bind fun _ _ => (expect_safe _ _).bind fun _ hproduct => ?_
  have hpassed : Call.Passed ⟨seq.nPrevRules, minTimes, maxTimes⟩ :=
    ⟨hseq.1, hseq.2, hmin, hmax, of_decide_eq_true hproduct⟩
  refine Keeps.get.bind fun p hp => ?_
  have hlogged : ∀ tables : Tables,
      Logged ⟨tables, ⟨seq.nPrevRules, minTimes, maxTimes⟩ :: p.expanded⟩ := by
    intro tables c hc
    rcases List.mem_cons.mp hc with rfl | hc
    · exact hpassed
    · exact hp c hc
  refine (Keeps.set (hlogged _)).bind fun _ _ => Keeps.ite (fun hpos => ?_) fun hpos => ?_
  · refine Keeps.pure ⟨⟨hpos, ?_⟩, rfl⟩
    exact Nat.lt_trans hpassed.product_lt (by decide)
  · exact absurd hpassed.product_pos hpos

section
variable {vocab : Option (Text → List Nat)} {alternates : Text → Nat → ParseM Text} {n : Nat}

/-- Repetitions of the last item. -/
theorem repetition_round (ruleName : Text) {minTimes maxTimes : Nat} (hseq : seq.Counted)
    (hle : seq.pos.length ≤ n) (hpos : pos.length < seq.pos.length)
    (hmin : minTimes ≤ MAX_REPETITION_THRESHOLD)
    (hmax : maxTimes = UINT64_MAX ∨ maxTimes ≤ MAX_REPETITION_THRESHOLD) :
    Safe (do
      let seq' ← handleRepetitions ruleName { seq with pos } minTimes maxTimes
      pure (.inl seq')) (Round n seq) := by
  have hcall := @handleRepetitions_safe ruleName { seq with pos } minTimes maxTimes hseq hmin hmax
  refine hcall.bind fun seq' h => Keeps.pure ?_
  have hsame : seq'.pos = pos := h.2
  refine ⟨⟨h.1, ?_⟩, ?_⟩
  · rw [hsame]
    exact Nat.le_trans (Nat.le_of_lt hpos) hle
  · rw [hsame]
    exact hpos

theorem push_round (hle : seq.pos.length ≤ n) {item : Rule} {nPrevRules : Nat}
    (hprev : 1 ≤ nPrevRules ∧ nPrevRules < 2 ^ 32) (hpos : pos.length < seq.pos.length) :
    Round n seq (.inl (seq.push item pos nPrevRules)) :=
  ⟨⟨hprev, Nat.le_trans (Nat.le_of_lt hpos) hle⟩, hpos⟩

/-- One round of the sequence parser reads on and stays within the bounds. -/
theorem sequenceRound_safe (ruleName : Text) (nested : Bool)
    (halternates : ∀ src id, src.length < n →
      Safe (alternates src id) fun rest => rest.length ≤ src.length)
    (hseq : seq.Counted) (hle : seq.pos.length ≤ n) :
    Safe (sequenceRound vocab alternates ruleName nested seq) (Round n seq) := by
  have hone : 1 ≤ 1 ∧ 1 < 2 ^ 32 := by decide
  have hforward : ∀ {c : UInt8}, peek seq.pos = c → c ≠ 0 →
      seq.pos.tail.length < seq.pos.length := by
    rintro c rfl hc
    exact tail_length hc
  -- What is behind an item and the spaces after it.
  have hbehind : ∀ {pos : Text}, pos.length < seq.pos.length →
      (parseSpace pos nested).length < seq.pos.length ∧
        (parseSpace pos.tail nested).length < seq.pos.length := by
    intro pos hpos
    have hspace := parseSpace_length pos nested
    have hspace' := parseSpace_length pos.tail nested
    rw [List.length_tail] at hspace'
    omega
  unfold sequenceRound
  refine Keeps.ite (fun hc => ?_) fun _ => ?_
  · have htail := hforward hc (by decide)
    refine (Keeps.iterate (literalRound_safe _) (Nat.le_refl _) (Nat.lt_succ_self _)).bind
      fun r hr => Keeps.pure ?_
    exact push_round hle hone (hbehind (Nat.lt_of_le_of_lt hr htail)).2
  refine Keeps.ite (fun hc => ?_) fun _ => ?_
  · have htail := hforward hc (by decide)
    have hskip : (if peek seq.pos.tail = '^'.toUInt8 then seq.pos.tail.tail
        else seq.pos.tail).length < seq.pos.length := by
      split
      · rw [List.length_tail]
        omega
      · exact htail
    refine (Keeps.iterate (classRound_safe _ _) (Nat.le_refl _) (Nat.lt_succ_self _)).bind
      fun r hr => Keeps.pure ?_
    exact push_round hle hone (hbehind (Nat.lt_of_le_of_lt hr hskip)).2
  refine Keeps.ite (fun hc => ?_) fun _ => ?_
  · have hskip : (if peek seq.pos = '!'.toUInt8 then seq.pos.tail
        else seq.pos).length ≤ seq.pos.length := by
      split
      · exact Nat.le_trans (by rw [List.length_tail]; omega) (Nat.le_refl _)
      · exact Nat.le_refl _
    refine (parseToken_reads vocab _).bind fun r hr => Keeps.pure ?_
    exact push_round hle hone (hbehind (Nat.lt_of_lt_of_le hr hskip)).1
  refine Keeps.ite (fun hc => ?_) fun _ => ?_
  · refine (parseName_reads seq.pos).bind fun r hr => ?_
    refine (onTables_safe _).bind fun refRuleId _ => Keeps.pure ?_
    exact push_round hle hone (hbehind hr).1
  refine Keeps.ite (fun hc => ?_) fun _ => ?_
  · have htail := hforward hc (by decide)
    have hgroup := Nat.lt_of_le_of_lt (parseSpace_length seq.pos.tail true) htail
    refine Keeps.get.bind fun before _ => (onTables_safe _).bind fun subRuleId _ => ?_
    refine (halternates _ subRuleId (Nat.lt_of_lt_of_le hgroup hle)).bind fun rest hrest => ?_
    refine Keeps.get.bind fun after _ => (expect_safe _ _).bind fun _ _ => Keeps.pure ?_
    refine push_round hle ⟨Nat.le_max_left _ _, ?_⟩
      (hbehind (Nat.lt_of_le_of_lt hrest hgroup)).2
    exact Nat.max_lt.mpr ⟨by decide, Nat.mod_lt _ (by decide)⟩
  refine Keeps.ite (fun hc => ?_) fun _ => ?_
  · exact Keeps.pure (push_round hle hone (hbehind (hforward hc (by decide))).1)
  refine Keeps.ite (fun hc => ?_) fun _ => ?_
  · have hpos := (hbehind (hforward hc (by decide))).1
    exact repetition_round ruleName hseq hle hpos (Nat.zero_le _) (Or.inl rfl)
  refine Keeps.ite (fun hc => ?_) fun _ => ?_
  · have hpos := (hbehind (hforward hc (by decide))).1
    exact repetition_round ruleName hseq hle hpos (by decide) (Or.inl rfl)
  refine Keeps.ite (fun hc => ?_) fun _ => ?_
  · have hpos := (hbehind (hforward hc (by decide))).1
    exact repetition_round ruleName hseq hle hpos (Nat.zero_le _) (Or.inr (by decide))
  refine Keeps.ite (fun hc => ?_) fun _ => Keeps.pure ⟨hseq, hle⟩
  have hpos := (hbehind (hforward hc (by decide))).1
  refine (parseBounds_safe _ nested).bind fun r hr => (expect_safe _ _).bind fun _ hbounds => ?_
  simp only [Bool.and_eq_true, Bool.or_eq_true, decide_eq_true_eq] at hbounds
  exact repetition_round ruleName hseq hle (Nat.lt_of_le_of_lt hr hpos) hbounds.1 hbounds.2

/-- A sequence, given that its groups are parsed safely. -/
theorem parseSequence_safe (ruleName : Text) (nested : Bool) (rule : Rule)
    (halternates : ∀ src' id, src'.length < src.length →
      Safe (alternates src' id) fun rest => rest.length ≤ src'.length) :
    Safe (parseSequence vocab alternates ruleName nested rule src) fun seq =>
      seq.Counted ∧ seq.pos.length ≤ src.length := by
  have hstart : Sequence.Counted { pos := src, rule, lastSymStart := rule.length } := by
    constructor
    · exact Nat.le_refl 1
    · show 1 < 2 ^ 32
      decide
  exact Keeps.iterate
    (fun seq hseq => sequenceRound_safe ruleName nested halternates hseq.1 hseq.2)
    ⟨hstart, Nat.le_refl _⟩ (Nat.lt_succ_self _)

end

/-! ### The parse -/

section
variable (vocab : Option (Text → List Nat))

/-- The alternates of a rule, nested or not, by induction on the fuel. -/
theorem parseAlternates_safe (ruleName : Text) (fuel : Nat) (nested : Bool) (ruleId : Nat)
    (hfuel : src.length < fuel) :
    Safe (parseAlternates vocab ruleName fuel nested src ruleId) fun rest =>
      rest.length ≤ src.length := by
  induction fuel generalizing nested src ruleId with
  | zero => exact absurd hfuel (Nat.not_lt_zero _)
  | succ fuel ih =>
    -- A group is shorter than the text that it is in.
    have hgroup : ∀ n, n ≤ src.length → ∀ src' id, src'.length < n →
        Safe (parseAlternates vocab ruleName fuel true src' id) fun rest =>
          rest.length ≤ src'.length :=
      fun n hn src' id hlt => ih true id (by omega)
    have hround : ∀ seq : Sequence, seq.pos.length ≤ src.length →
        Safe (alternatesRound vocab (parseAlternates vocab ruleName fuel true) ruleName nested seq)
          (Sum.elim (fun s => s.pos.length ≤ src.length ∧ s.pos.length < seq.pos.length)
            fun s => s.pos.length ≤ src.length) := by
      intro seq hle
      refine Keeps.ite (fun hc => ?_) fun _ => Keeps.pure hle
      have htail : seq.pos.tail.length < seq.pos.length := by
        apply tail_length
        rw [hc]
        decide
      have hspace := parseSpace_length seq.pos.tail true
      refine (parseSequence_safe ruleName nested _ (hgroup _ (by omega))).bind
        fun s hs => Keeps.pure ?_
      have hs' := hs.2
      show s.pos.length ≤ src.length ∧ s.pos.length < seq.pos.length
      omega
    refine (parseSequence_safe ruleName nested [] (hgroup _ (Nat.le_refl _))).bind fun seq hseq => ?_
    refine (Keeps.iterate hround hseq.2 (Nat.lt_succ_self _)).bind fun seq' hseq' => ?_
    exact (onTables_safe _).bind fun _ _ => Keeps.pure hseq'

/-- A rule reads on, so the loop over the rules ends. -/
theorem parseRule_safe (src : Text) :
    Safe (parseRule vocab src) fun rest => rest.length < src.length := by
  refine (parseName_reads src).bind fun r hr => ?_
  obtain ⟨name, pos⟩ := r
  change pos.length < src.length at hr
  refine (onTables_safe _).bind fun ruleId _ => (expect_safe _ _).bind fun _ _ => ?_
  have hbody : (parseSpace ((parseSpace pos false).drop 3) true).length < src.length := by
    have hspace := parseSpace_length pos false
    have hspace' := parseSpace_length ((parseSpace pos false).drop 3) true
    rw [List.length_drop] at hspace'
    omega
  refine (parseAlternates_safe vocab name _ false ruleId (Nat.lt_succ_self _)).bind
    fun rest hrest => ?_
  have hline : ∀ k, (parseSpace (rest.drop k) true).length < src.length := by
    intro k
    have hspace := parseSpace_length (rest.drop k) true
    rw [List.length_drop] at hspace
    omega
  refine Keeps.ite (fun _ => Keeps.pure ?_) fun _ => Keeps.ite (fun _ => Keeps.pure ?_) fun _ =>
    (expect_safe _ _).bind fun _ _ => Keeps.pure (hline 0)
  · split
    · exact hline 2
    · rw [← List.drop_one]
      exact hline 1
  · rw [← List.drop_one]
    exact hline 1

theorem parseRules_safe (src : Text) : Safe (parseRules vocab src) fun _ => True := by
  have hround : ∀ pos : Text, True → Safe (rulesRound vocab pos)
      (Sum.elim (fun pos' => True ∧ pos'.length < pos.length) fun _ => True) := by
    intro pos _
    refine Keeps.ite (fun _ => Keeps.pure trivial) fun _ => ?_
    exact (parseRule_safe vocab pos).bind fun rest hrest => Keeps.pure ⟨trivial, hrest⟩
  exact Keeps.iterate hround trivial (Nat.lt_succ_of_le (parseSpace_length src true))

/-- A parse ends with an answer, and every repetition that it expanded has passed the checks. -/
theorem parse_ends (src : Text) :
    (∃ accepted, (parse vocab src).1 = .ok accepted) ∧ Logged (parse vocab src).2 := by
  have hstart : Logged {} := fun c hc => absurd hc List.not_mem_nil
  obtain ⟨hlogged, -, hthrown⟩ := parseRules_safe vocab src {} hstart
  unfold parse
  rcases hrun : (parseRules vocab src).run.run {} with ⟨r, p⟩
  rw [hrun] at hlogged hthrown
  cases r with
  | ok _ => exact ⟨⟨_, rfl⟩, hlogged⟩
  | error stop =>
    cases stop with
    | thrown what => exact ⟨⟨_, rfl⟩, hlogged⟩
    | assertion => exact (hthrown _ rfl).elim
    | noFuel => exact (hthrown _ rfl).elim

/-- The parse accepts or rejects the text, and each repetition that it expands does bounded work in
numbers that do not wrap. -/
structure BoundedWork (src : Text) : Prop where
  ends : ∃ accepted, (parse vocab src).1 = .ok accepted
  bounded : ∀ c ∈ (parse vocab src).2.expanded, c.Bounded

/-- **The work is bounded exactly where no repetition has its bounds the wrong way round.** -/
theorem parse_boundedWork_iff (src : Text) :
    BoundedWork vocab src ↔ ∀ c ∈ (parse vocab src).2.expanded, ¬ c.Reversed := by
  obtain ⟨hends, hlogged⟩ := parse_ends vocab src
  constructor
  · intro h c hc
    exact (hlogged c hc).bounded_iff.mp (h.bounded c hc)
  · intro h
    refine ⟨hends, fun c hc => ?_⟩
    exact (hlogged c hc).bounded_iff.mpr (h c hc)

end

/-- `root ::= "a"{3,2}` -/
def reversedText : Text := "root ::= \"a\"{3,2}".toUTF8.toList

/-- The two bounds are below the limit, and the loop has `2 ^ 64 - 1` rounds. -/
theorem not_boundedWork_reversed : ¬ BoundedWork none reversedText := by
  have hmem : (⟨1, 3, 2⟩ : Call) ∈ (parse none reversedText).2.expanded := by decide +kernel
  intro h
  have hwork := (h.bounded _ hmem).work
  exact absurd hwork (by decide +kernel)

end PxqLlama.Grammar.Parser
