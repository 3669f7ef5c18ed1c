import PxqLlama.Proofs.Grammar.Advance

/-!
# `Proofs.Grammar.LeftRecursion`: which grammars hang

`detectLeftRecursion` returns (`detect_terminates`) and answers `true` only where a rule is left
recursive (`detect_sound`). It takes a rule to vanish when one of its alternates is empty, not when
one is made of rules that vanish. So it lets rules pass that come back to the front of a stack with
something behind them, and `advanceStack` never returns (`hidden_left_recursion_hangs`), or that come
back alone, and no stack comes out. `neverHangs_iff` says for which rules neither happens.
-/

namespace PxqLlama.Grammar

variable {rules : Rules}

/-! ### Empty alternates -/

theorem mem_laterAlternates_of_alt {rule : Rule} {k j : Nat}
    (halt : (rule.getD j ⟨.end, 0⟩).type = .alt)
    (hbefore : ∀ i < j, (rule.getD i ⟨.end, 0⟩).type ≠ .end) :
    k + j + 1 ∈ laterAlternates rule k := by
  induction rule generalizing k j with
  | nil => cases halt
  | cons e es ih =>
    cases j with
    | zero =>
      have htype : e.type = .alt := halt
      unfold laterAlternates
      rw [htype]
      exact List.mem_cons_self
    | succ j =>
      have hlater : k + 1 + j + 1 ∈ laterAlternates es (k + 1) :=
        ih halt fun i hi => hbefore (i + 1) (Nat.succ_lt_succ hi)
      rw [show k + (j + 1) + 1 = k + 1 + j + 1 by omega]
      unfold laterAlternates
      split
      · exact absurd ‹_› (hbefore 0 (Nat.succ_pos j))
      · exact List.mem_cons_of_mem _ hlater
      · exact hlater

/-- The end of a rule is its last element. -/
theorem WellFormed.end_last (hwf : WellFormed rules) {p : Pos} (hr : p.rule < rules.length)
    (hidx : p.idx < (ruleAt rules p.rule).length) (hend : (elementAt rules p).type = .end) :
    p.idx + 1 = (ruleAt rules p.rule).length := by
  obtain ⟨body, hbody, hne⟩ := hwf.ends _ (ruleAt_mem hr)
  have hlen : (ruleAt rules p.rule).length = body.length + 1 := by rw [hbody]; simp
  by_contra hlast
  have hlt : p.idx < body.length := by omega
  have hat : elementAt rules p = body[p.idx] := by
    rw [elementAt_of_lt hidx]
    simp only [hbody]
    rw [List.getElem_append_left hlt]
  exact hne _ (List.getElem_mem hlt) (by rw [← hat]; exact hend)

theorem WellFormed.alternate_behind_alt (hwf : WellFormed rules) {p : Pos}
    (halt : (elementAt rules p).type = .alt) : p.idx + 1 ∈ alternates (ruleAt rules p.rule) := by
  obtain ⟨hr, hidx⟩ := pos_lt (p := p) (by rw [halt]; simp)
  refine List.mem_cons_of_mem _ ?_
  have hlater := @mem_laterAlternates_of_alt (ruleAt rules p.rule) 0 p.idx halt fun i hi hend => by
    have hlast := hwf.end_last (p := ⟨p.rule, i⟩) hr (Nat.lt_trans hi hidx) hend
    have : i + 1 = (ruleAt rules p.rule).length := hlast
    omega
  rwa [Nat.zero_add] at hlater

theorem drop_eq_cons {p : Pos} {e : Element} {es : List Element}
    (h : (ruleAt rules p.rule).drop p.idx = e :: es) :
    p.idx < (ruleAt rules p.rule).length ∧ elementAt rules p = e ∧
      (ruleAt rules p.rule).drop p.next.idx = es := by
  have hlt : p.idx < (ruleAt rules p.rule).length := by
    by_contra hle
    rw [List.drop_eq_nil_of_le (Nat.le_of_not_lt hle)] at h
    cases h
  rw [List.drop_eq_getElem_cons hlt] at h
  obtain ⟨he, hes⟩ := List.cons.inj h
  exact ⟨hlt, by rw [elementAt_of_lt hlt]; exact he, hes⟩

variable {r : Fin rules.length}

/-- An alternate that the first loop finds empty is. -/
theorem empty_of_hasEmptyAlternate (hwf : WellFormed rules) (idx : Nat) {start : Bool}
    (hstart : start = true → idx ∈ alternates (ruleAt rules r))
    (h : hasEmptyAlternate ((ruleAt rules r).drop idx) start = true) :
    [] ∈ productions rules r := by
  generalize hes : (ruleAt rules r).drop idx = es at h
  induction es generalizing idx start with
  | nil => cases h
  | cons e es ih =>
    obtain ⟨hlt, he, hrest⟩ := @drop_eq_cons rules ⟨r, idx⟩ e es hes
    unfold hasEmptyAlternate at h
    split at h
    · rename_i hend
      rcases Bool.or_eq_true _ _ ▸ h with hs | h
      · refine List.mem_map.mpr ⟨idx, hstart hs, ?_⟩
        exact sequenceAt_of_end (by rw [he]; exact hend)
      · refine ih (idx + 1) (fun _ => ?_) hrest h
        unfold isEndOfSequence at hend
        split at hend
        · rename_i htype
          -- nothing is behind the end of the rule
          have hlast := hwf.end_last (p := ⟨r, idx⟩) r.isLt hlt (by rw [he]; exact htype)
          have hnil : es = [] := by
            rw [← hrest]
            exact List.drop_eq_nil_of_le (Nat.le_of_eq hlast.symm)
          rw [hnil] at h
          cases h
        · exact hwf.alternate_behind_alt (p := ⟨r, idx⟩) (by rw [he]; assumption)
        · cases hend
    · exact ih (idx + 1) (fun hfalse => by cases hfalse) hrest h

/-! ### The calls -/

/-- A rule that is flagged as possibly empty has an empty alternate. -/
def FlagsRight (rules : Rules) (st : DetectState) : Prop :=
  ∀ r : Fin rules.length, st.mayBeEmpty r = true → [] ∈ productions rules r

/-- A call that answers `true` has found a cycle, where the rules in progress lead to its rule; and
one that answers `false` leaves the rules in progress as they were. -/
def DetectSound (rules : Rules) (detect : Nat → DetectState → Option (Bool × DetectState)) : Prop :=
  ∀ (r : Fin rules.length) st res, detect r st = some res → FlagsRight rules st →
    (∀ q : Fin rules.length, st.inProgress q = true →
      Relation.TransGen (LeftEdge (productions rules)) q r) →
    (res.1 = true → ∃ A, LeftRecursive (productions rules) A) ∧
    (res.1 = false → FlagsRight rules res.2)

/-- A call that answers `false` leaves the rules in progress as they were. -/
def DetectRestores (detect : Nat → DetectState → Option (Bool × DetectState)) : Prop :=
  ∀ r st st', detect r st = some (false, st') → st'.inProgress = st.inProgress

variable {detect : Nat → DetectState → Option (Bool × DetectState)} {st : DetectState} {fuel : Nat}

/-- The marks of the rules in progress are taken back on the way out. -/
theorem detectElements_restores (hdetect : DetectRestores detect) {es : List Element}
    {recurse : Bool} {st' : DetectState}
    (h : detectElements detect es recurse st = some (false, st')) :
    st'.inProgress = st.inProgress := by
  induction es generalizing recurse st with
  | nil => cases h; rfl
  | cons e es ih =>
    unfold detectElements at h
    split at h
    · cases hcall : detect e.value st with
      | none => rw [hcall] at h; cases h
      | some res =>
        obtain ⟨found, st₁⟩ := res
        rw [hcall] at h
        cases found with
        | true => cases h
        | false => exact (ih h).trans (hdetect _ _ _ hcall)
    · exact ih h

/-- The search leaves no rule in progress. -/
theorem detect_restores (rules : Rules) (fuel : Nat) :
    DetectRestores (detectLeftRecursion rules fuel) := by
  induction fuel with
  | zero => intro r st st' h; cases h
  | succ fuel ih =>
    intro r st st' h
    unfold detectLeftRecursion at h
    split at h
    · cases h
    · rename_i hfree
      dsimp only at h
      generalize hst : (if hasEmptyAlternate (ruleAt rules r) true = true then _ else _) = st₁ at h
      have hprogress : st₁.inProgress = Function.update st.inProgress r true := by
        rw [← hst]
        split <;> rfl
      cases helems : detectElements (detectLeftRecursion rules fuel) (ruleAt rules r) true st₁ with
      | none => rw [helems] at h; cases h
      | some res =>
        obtain ⟨found, st₂⟩ := res
        rw [helems] at h
        cases found with
        | true => cases h
        | false =>
          cases h
          show Function.update st₂.inProgress r false = st.inProgress
          rw [detectElements_restores ih helems, hprogress, Function.update_idem]
          exact Function.update_eq_self_iff.mpr (by simpa using hfree)

/-! ### An answer of `true` -/

/-- The elements before a place of an alternate all vanish. -/
def PrefixVanishes (rules : Rules) (r : Fin rules.length) (idx : Nat) : Prop :=
  ∃ start ∈ alternates (ruleAt rules r), ∃ γ,
    sequenceAt rules ⟨r, start⟩ = γ ++ sequenceAt rules ⟨r, idx⟩ ∧
      LeftReach (productions rules) γ []

theorem prefixVanishes_start {idx : Nat} (h : idx ∈ alternates (ruleAt rules r)) :
    PrefixVanishes rules r idx :=
  ⟨idx, h, [], rfl, .refl⟩

section

variable {r : Fin rules.length} {idx : Nat} (hwf : WellFormed rules)
  (href : (elementAt rules ⟨r, idx⟩).type = .ruleRef)

include hwf href

theorem sequenceAt_ref : sequenceAt rules ⟨r, idx⟩
    = .nonterminal ⟨_, ref_lt hwf href⟩ :: sequenceAt rules ⟨r, idx + 1⟩ := by
  have hend : isEndOfSequence (elementAt rules ⟨r, idx⟩) = false := by
    unfold isEndOfSequence
    rw [href]
  rw [sequenceAt_cons hend, symbolOf_ref href (ref_lt hwf href)]
  rfl

theorem PrefixVanishes.edge (h : PrefixVanishes rules r idx) :
    LeftEdge (productions rules) r ⟨_, ref_lt hwf href⟩ := by
  obtain ⟨start, hstart, γ, heq, hγ⟩ := h
  refine ⟨γ, sequenceAt rules ⟨r, idx + 1⟩, ?_, hγ⟩
  rw [← sequenceAt_ref hwf href, ← heq]
  exact List.mem_map.mpr ⟨start, hstart, rfl⟩

theorem PrefixVanishes.next (h : PrefixVanishes rules r idx)
    (hempty : [] ∈ productions rules ⟨_, ref_lt hwf href⟩) :
    PrefixVanishes rules r (idx + 1) := by
  obtain ⟨start, hstart, γ, heq, hγ⟩ := h
  have hvanish : LeftReach (productions rules) [.nonterminal ⟨_, ref_lt hwf href⟩] [] :=
    .single (.expand hempty)
  refine ⟨start, hstart, γ ++ [.nonterminal ⟨_, ref_lt hwf href⟩], ?_,
    leftReach_nil_append hγ hvanish⟩
  rw [heq, sequenceAt_ref hwf href, List.append_assoc]
  rfl

end

/-- The loop over the elements: a rule that it reports begins itself. -/
theorem detectElements_sound (hwf : WellFormed rules) (hsound : DetectSound rules detect)
    (hrestores : DetectRestores detect) (idx : Nat) {recurse : Bool} {res : Bool × DetectState}
    (h : detectElements detect ((ruleAt rules r).drop idx) recurse st = some res)
    (hbefore : recurse = true → idx < (ruleAt rules r).length → PrefixVanishes rules r idx)
    (hflags : FlagsRight rules st)
    (hprogress : ∀ q : Fin rules.length, st.inProgress q = true →
      Relation.ReflTransGen (LeftEdge (productions rules)) q r) :
    (res.1 = true → ∃ A, LeftRecursive (productions rules) A) ∧
      (res.1 = false → FlagsRight rules res.2) := by
  generalize hes : (ruleAt rules r).drop idx = es at h
  induction es generalizing idx recurse st with
  | nil =>
    cases h
    exact ⟨nofun, fun _ => hflags⟩
  | cons e es ih =>
    obtain ⟨hlt, he, hrest⟩ := @drop_eq_cons rules ⟨r, idx⟩ e es hes
    unfold detectElements at h
    split at h
    · rename_i hcond
      obtain ⟨htype, hrecurse⟩ := hcond
      rw [← he] at htype h
      have hvanish := hbefore hrecurse hlt
      have hedge := hvanish.edge hwf htype
      have hcallee : ∀ q : Fin rules.length, st.inProgress q = true →
          Relation.TransGen (LeftEdge (productions rules)) q ⟨_, ref_lt hwf htype⟩ :=
        fun q hq => Relation.TransGen.tail' (hprogress q hq) hedge
      cases hcall : detect (elementAt rules ⟨r, idx⟩).value st with
      | none => rw [hcall] at h; cases h
      | some called =>
        obtain ⟨found, st₁⟩ := called
        obtain ⟨htrue, hfalse⟩ := hsound ⟨_, ref_lt hwf htype⟩ st _ hcall hflags hcallee
        rw [hcall] at h
        cases found with
        | true =>
          cases h
          exact ⟨htrue, nofun⟩
        | false =>
          have hflags₁ : FlagsRight rules st₁ := hfalse rfl
          refine ih (idx + 1) (fun hempty _ => ?_) hflags₁ ?_ hrest h
          · exact hvanish.next hwf htype (hflags₁ ⟨_, ref_lt hwf htype⟩ hempty)
          · rw [hrestores _ _ _ hcall]
            exact hprogress
    · refine ih (idx + 1) (fun hend hmore => ?_) hflags hprogress hrest h
      -- a new alternate starts, since the rule goes on
      unfold isEndOfSequence at hend
      split at hend
      · rename_i htype
        have hlast := hwf.end_last (p := ⟨r, idx⟩) r.isLt hlt (by rw [he]; exact htype)
        exact absurd hmore (Nat.not_lt_of_le (Nat.le_of_eq hlast.symm))
      · rename_i htype
        exact prefixVanishes_start (hwf.alternate_behind_alt (p := ⟨r, idx⟩) (by rw [he]; exact htype))
      · cases hend

/-- So does the whole search, by induction on the fuel. -/
theorem detect_sound (hwf : WellFormed rules) (fuel : Nat) :
    DetectSound rules (detectLeftRecursion rules fuel) := by
  induction fuel with
  | zero => intro r st res h; cases h
  | succ fuel ih =>
    intro r st res h hflags hprogress
    unfold detectLeftRecursion at h
    split at h
    · -- the rule is in progress, and leads to itself
      cases h
      have hcycle := hprogress r ‹_›
      exact ⟨fun _ => ⟨r, leftRecursive_iff.mpr hcycle⟩, nofun⟩
    · dsimp only at h
      generalize hst : (if hasEmptyAlternate (ruleAt rules r) true = true then _ else _) = st₁ at h
      have hprogress₁ : ∀ q : Fin rules.length, st₁.inProgress q = true →
          Relation.ReflTransGen (LeftEdge (productions rules)) q r := by
        have hupdate : st₁.inProgress = Function.update st.inProgress r true := by
          rw [← hst]
          split <;> rfl
        intro q hq
        rw [hupdate] at hq
        by_cases hqr : q = r
        · rw [hqr]
        · rw [Function.update_of_ne (fun heq => hqr (Fin.ext heq))] at hq
          exact (hprogress q hq).to_reflTransGen
      have hflags₁ : FlagsRight rules st₁ := by
        intro q hq
        rw [← hst] at hq
        split at hq
        · rename_i hempty
          by_cases hqr : q = r
          · rw [hqr]
            exact empty_of_hasEmptyAlternate hwf 0 (fun _ => List.mem_cons_self) hempty
          · have hne : (q : Nat) ≠ r := fun heq => hqr (Fin.ext heq)
            have hold : Function.update st.mayBeEmpty r true q = true := hq
            rw [Function.update_of_ne hne] at hold
            exact hflags q hold
        · exact hflags q hq
      cases helems : detectElements (detectLeftRecursion rules fuel) (ruleAt rules r) true st₁ with
      | none => rw [helems] at h; cases h
      | some called =>
        obtain ⟨found, st₂⟩ := called
        obtain ⟨htrue, hfalse⟩ := detectElements_sound hwf ih (detect_restores rules fuel)
          0 helems (fun _ _ => prefixVanishes_start List.mem_cons_self) hflags₁ hprogress₁
        rw [helems] at h
        cases found with
        | true =>
          cases h
          exact ⟨htrue, nofun⟩
        | false =>
          cases h
          exact ⟨nofun, fun _ => hfalse rfl⟩

/-! ### The calls return -/

/-- The rules that are not in progress. -/
def idle (rules : Rules) (st : DetectState) : Finset (Fin rules.length) :=
  Finset.univ.filter fun r => st.inProgress r = false

/-- The loop ends when each reference does, on fewer idle rules. -/
theorem detectElements_terminates {n : Nat} (hrestores : DetectRestores detect)
    (hdetect : ∀ (r : Fin rules.length) st, (idle rules st).card < n → ∃ res, detect r st = some res)
    {es : List Element} (hrefs : ∀ e ∈ es, e.type = .ruleRef → e.value < rules.length)
    (recurse : Bool) (hidle : (idle rules st).card < n) :
    ∃ res, detectElements detect es recurse st = some res := by
  induction es generalizing recurse st with
  | nil => exact ⟨_, rfl⟩
  | cons e es ih =>
    have hrefs' := fun e' he' => hrefs e' (List.mem_cons_of_mem e he')
    unfold detectElements
    split
    · rename_i hcond
      have hlt := hrefs e List.mem_cons_self hcond.1
      obtain ⟨⟨found, st₁⟩, hcall⟩ := hdetect ⟨e.value, hlt⟩ st hidle
      simp only at hcall
      rw [hcall]
      cases found with
      | true => exact ⟨_, rfl⟩
      | false =>
        refine ih hrefs' _ ?_
        unfold idle
        rw [hrestores _ _ _ hcall]
        exact hidle
    · exact ih hrefs' _ hidle

/-- A depth of more than the rules that are not in progress is enough. -/
theorem detect_terminates (hwf : WellFormed rules) (hidle : (idle rules st).card < fuel) :
    ∃ res, detectLeftRecursion rules fuel r st = some res := by
  induction fuel generalizing r st with
  | zero => exact absurd hidle (Nat.not_lt_zero _)
  | succ fuel ih =>
    unfold detectLeftRecursion
    split
    · exact ⟨_, rfl⟩
    · rename_i hfree
      dsimp only
      generalize hst : (if hasEmptyAlternate (ruleAt rules r) true = true then _ else _) = st₁
      have hfewer : (idle rules st₁).card < fuel := by
        have hupdate : st₁.inProgress = Function.update st.inProgress r true := by
          rw [← hst]
          split <;> rfl
        have hsub : idle rules st₁ ⊂ idle rules st := by
          refine Finset.ssubset_iff_of_subset ?_ |>.mpr ⟨r, ?_, ?_⟩
          · intro q hq
            simp only [idle, Finset.mem_filter, Finset.mem_univ, true_and, hupdate] at hq ⊢
            by_cases hqr : (q : Nat) = r
            · rw [hqr, Function.update_self] at hq
              cases hq
            · rwa [Function.update_of_ne hqr] at hq
          · simpa [idle] using hfree
          · simp [idle, hupdate]
        exact Nat.lt_of_lt_of_le (Finset.card_lt_card hsub) (Nat.le_of_lt_succ hidle)
      have hrefs : ∀ e ∈ ruleAt rules r, e.type = .ruleRef → e.value < rules.length :=
        hwf.refs _ (ruleAt_mem r.isLt)
      obtain ⟨⟨found, st₂⟩, helems⟩ := detectElements_terminates (detect_restores rules fuel)
        (fun q st hq => ih hq) hrefs true hfewer
      rw [helems]
      cases found with
      | true => exact ⟨_, rfl⟩
      | false => exact ⟨_, rfl⟩

/-- The check of all rules ends with fuel for each rule once. -/
theorem checkRules_terminates (hwf : WellFormed rules) {is : List Nat}
    (his : ∀ i ∈ is, i < rules.length) (hst : st.inProgress = fun _ => false) :
    ∃ found, checkRules rules (rules.length + 1) is st = some found := by
  induction is generalizing st with
  | nil => exact ⟨false, rfl⟩
  | cons i is ih =>
    have his' := fun j hj => his j (List.mem_cons_of_mem i hj)
    unfold checkRules
    split
    · exact ih his' hst
    · have hidle : (idle rules st).card < rules.length + 1 := by
        have hle := Finset.card_le_univ (idle rules st)
        rw [Fintype.card_fin] at hle
        exact Nat.lt_succ_of_le hle
      obtain ⟨⟨found, st'⟩, hcall⟩ :=
        detect_terminates hwf (r := ⟨i, his i List.mem_cons_self⟩) hidle
      simp only at hcall
      rw [hcall]
      cases found with
      | true => exact ⟨true, rfl⟩
      | false => exact ih his' ((detect_restores rules _ _ _ _ hcall).trans hst)

/-- A grammar that is refused has a left-recursive rule. -/
theorem checkRules_sound (hwf : WellFormed rules) {is : List Nat}
    (his : ∀ i ∈ is, i < rules.length) (hst : st.inProgress = fun _ => false)
    (hflags : FlagsRight rules st) (h : checkRules rules fuel is st = some true) :
    ∃ r, LeftRecursive (productions rules) r := by
  induction is generalizing st with
  | nil => cases h
  | cons i is ih =>
    have his' := fun j hj => his j (List.mem_cons_of_mem i hj)
    unfold checkRules at h
    split at h
    · exact ih his' hst hflags h
    · cases hcall : detectLeftRecursion rules fuel i st with
      | none => rw [hcall] at h; cases h
      | some res =>
        obtain ⟨found, st'⟩ := res
        have hidle : ∀ q : Fin rules.length, st.inProgress q = true →
            Relation.TransGen (LeftEdge (productions rules)) q ⟨i, his i List.mem_cons_self⟩ := by
          intro q hq
          rw [hst] at hq
          cases hq
        obtain ⟨htrue, hfalse⟩ :=
          detect_sound hwf fuel ⟨i, his i List.mem_cons_self⟩ st _ hcall hflags hidle
        rw [hcall] at h
        cases found with
        | true => exact htrue rfl
        | false => exact ih his' ((detect_restores rules _ _ _ _ hcall).trans hst) (hfalse rfl) h

theorem isLeftRecursive_terminates (hwf : WellFormed rules) :
    ∃ found, isLeftRecursive rules (rules.length + 1) = some found :=
  checkRules_terminates hwf (fun _ hi => List.mem_range.mp hi) rfl

theorem isLeftRecursive_sound (hwf : WellFormed rules)
    (h : isLeftRecursive rules fuel = some true) : ∃ r, LeftRecursive (productions rules) r :=
  checkRules_sound hwf (fun _ hi => List.mem_range.mp hi) rfl (fun _ hr => by cases hr) h

/-! ### Hanging -/

/-- Whatever is accepted, and whichever rule is the start, each call of `advanceStack` returns, with
at least one stack. -/
structure NeverHangs (rules : Rules) : Prop where
  returns : ∀ start < rules.length, ∀ stack, Passed rules start stack →
    ∀ newStacks, ∃ fuel out, advanceStack rules fuel stack newStacks = some out
  some_stack : ∀ start < rules.length, ∀ stack, Passed rules start stack →
    ∀ fuel out, advanceStack rules fuel stack [] = some out → out ≠ []

section

variable (hwf : WellFormed rules)

include hwf

/-- An alternate of the start rule is passed to `advanceStack`. -/
theorem exists_passed {r : Fin rules.length} {α : List (Symbol Unit (Fin rules.length))}
    (hα : α ∈ productions rules r) :
    ∃ s, Passed rules r s ∧ ValidStack rules s ∧ stackString rules s = α := by
  obtain ⟨idx, hidx, rfl⟩ := List.mem_map.mp hα
  have hpassed : Passed rules r (pushPos rules ⟨r, idx⟩ []) := .start hidx
  refine ⟨_, hpassed, passed_valid hwf hpassed, ?_⟩
  rw [stackString_pushPos]
  exact List.append_nil _

/-- Where growth is possible some input hangs. -/
theorem NeverHangs.not_grows (h : NeverHangs rules) (r : Fin rules.length) :
    ¬ Grows (productions rules) r := by
  rintro ⟨β, hβ, hreach⟩
  obtain ⟨α, hstep, hα⟩ := Relation.TransGen.head'_iff.mp hreach
  generalize hfrom : [Symbol.nonterminal r] = start at hstep
  cases hstep with
  | @expand A α γ hmem =>
    cases hfrom
    rw [List.append_nil] at hα
    obtain ⟨s, hpassed, hvalid, rfl⟩ := exists_passed hwf hmem
    obtain ⟨fuel, out, hout⟩ := h.returns r r.isLt s hpassed []
    -- the search has ended, so the expansions are bounded
    obtain ⟨b, hb⟩ := (finite_reaches_iff hwf hvalid).mp (explore_spec hout).1
    obtain ⟨δ, hlen, hδ⟩ := unbounded_of_grows ⟨β, hβ, hreach⟩ hα b
    have hle := hb _ hδ
    rw [List.length_cons] at hle
    omega

theorem NeverHangs.live (h : NeverHangs rules) (r : Fin rules.length)
    (α : List (Symbol Unit (Fin rules.length))) (hα : α ∈ productions rules r) :
    Live (productions rules) α := by
  obtain ⟨s, hpassed, hvalid, rfl⟩ := exists_passed hwf hα
  obtain ⟨fuel, out, hout⟩ := h.returns r r.isLt s hpassed []
  obtain ⟨t, ht⟩ := List.exists_mem_of_ne_nil _ (h.some_stack r r.isLt s hpassed fuel out hout)
  rcases (mem_advanceStack hout).mp ht with hnil | hleaf
  · cases hnil
  · exact (exists_leaf_iff hwf hvalid).mp ⟨t, hleaf⟩

theorem neverHangs_of (hgrows : ∀ r, ¬ Grows (productions rules) r)
    (hlive : ∀ r, ∀ α ∈ productions rules r, Live (productions rules) α) : NeverHangs rules := by
  refine ⟨fun start _ s hpassed newStacks => ?_, fun start _ s hpassed fuel out hout => ?_⟩
  · exact advanceStack_terminates hwf (passed_valid hwf hpassed) hgrows newStacks
  · obtain ⟨t, ht⟩ := (exists_leaf_iff hwf (passed_valid hwf hpassed)).mpr
      (live_of_rules hlive productions_ne_nil _)
    exact List.ne_nil_of_mem ((mem_advanceStack hout).mpr (.inr ht))

end

/-- The check for left recursion returns, and refuses rules only where one of them is left
recursive. Rules that it lets pass never hang exactly when no rule comes back to the front of its
own expansion with something behind it, and every alternate can be expanded to a terminal at the
front or to nothing. -/
theorem neverHangs_iff (hwf : WellFormed rules) :
    (∃ fuel found, isLeftRecursive rules fuel = some found) ∧
    (∀ fuel, isLeftRecursive rules fuel = some true →
      ∃ r, LeftRecursive (productions rules) r) ∧
    (∀ fuel, isLeftRecursive rules fuel = some false →
      (NeverHangs rules ↔ (∀ r, ¬ Grows (productions rules) r) ∧
        ∀ r, ∀ α ∈ productions rules r, Live (productions rules) α)) := by
  refine ⟨⟨_, isLeftRecursive_terminates hwf⟩, fun _ h => isLeftRecursive_sound hwf h,
    fun _ _ => ⟨fun h => ⟨h.not_grows hwf, h.live hwf⟩, fun h => neverHangs_of hwf h.1 h.2⟩⟩

/-! ### Two grammars -/

theorem wellFormed_of_dropLast (hends : ∀ rule ∈ rules, rule = rule.dropLast ++ [⟨.end, 0⟩] ∧
      ∀ e ∈ rule.dropLast, e.type ≠ .end)
    (hrefs : ∀ rule ∈ rules, ∀ e ∈ rule, e.type = .ruleRef → e.value < rules.length)
    (hplaced : ∀ rule ∈ rules, List.IsChain mayFollow (⟨.alt, 0⟩ :: rule)) : WellFormed rules :=
  ⟨fun rule hrule => ⟨rule.dropLast, hends rule hrule⟩, hrefs, hplaced⟩

/-- `root ::= "a" root | "b"`. -/
def plainRules : Rules :=
  [[⟨.char, 97⟩, ⟨.ruleRef, 0⟩, ⟨.alt, 0⟩, ⟨.char, 98⟩, ⟨.end, 0⟩]]

theorem plainRules_wellFormed : WellFormed plainRules :=
  wellFormed_of_dropLast (by decide) (by decide) (by decide)

/-- The alternates begin with a character. -/
theorem plainRules_productions (r : Fin plainRules.length)
    (α : List (Symbol Unit (Fin plainRules.length))) (hα : α ∈ productions plainRules r) :
    ∃ t δ, α = .terminal t :: δ := by
  have hcases : ∀ r, ∀ α ∈ productions plainRules r, α.head? = some (.terminal ()) := by
    decide
  obtain ⟨δ, rfl⟩ := List.head?_eq_some_iff.mp (hcases r α hα)
  exact ⟨(), δ, rfl⟩

theorem plainRules_neverHangs :
    isLeftRecursive plainRules 2 = some false ∧ NeverHangs plainRules := by
  have hchecked : isLeftRecursive plainRules 2 = some false := by decide
  refine ⟨hchecked, ((neverHangs_iff plainRules_wellFormed).2.2 2 hchecked).mpr
    ⟨fun r hgrows => ?_, fun r α hα => ?_⟩⟩
  · exact not_leftRecursive_of_terminals plainRules_productions r hgrows.leftRecursive
  · obtain ⟨t, δ, rfl⟩ := plainRules_productions r α hα
    exact live_of_leaf (leftLeaf_terminal t δ)

/-- `A ::= B A "x" | "y"`, `B ::= C`, `C ::= "c" |`: `B` vanishes, but only by way of `C`. -/
def hiddenRules : Rules :=
  [[⟨.ruleRef, 1⟩, ⟨.ruleRef, 0⟩, ⟨.char, 120⟩, ⟨.alt, 0⟩, ⟨.char, 121⟩, ⟨.end, 0⟩],
    [⟨.ruleRef, 2⟩, ⟨.end, 0⟩],
    [⟨.char, 99⟩, ⟨.alt, 0⟩, ⟨.end, 0⟩]]

theorem hiddenRules_wellFormed : WellFormed hiddenRules :=
  wellFormed_of_dropLast (by decide) (by decide) (by decide)

/-- The symbol of one of the rules. -/
abbrev hiddenRef (i : Fin 3) : Symbol Unit (Fin hiddenRules.length) := .nonterminal i

/-- `A` comes back with "x" behind it. -/
theorem hiddenRules_grows : Grows (productions hiddenRules) (0 : Fin 3) := by
  have hA : LeftStep (productions hiddenRules) [hiddenRef 0]
      ([hiddenRef 1, hiddenRef 0, .terminal ()] ++ []) := .expand (by decide)
  have hB : LeftStep (productions hiddenRules) [hiddenRef 1, hiddenRef 0, .terminal ()]
      ([hiddenRef 2] ++ [hiddenRef 0, .terminal ()]) := .expand (by decide)
  have hC : LeftStep (productions hiddenRules) [hiddenRef 2, hiddenRef 0, .terminal ()]
      ([] ++ [hiddenRef 0, .terminal ()]) := .expand (by decide)
  exact ⟨[.terminal ()], List.cons_ne_nil _ _, ((Relation.TransGen.single hA).tail hB).tail hC⟩

/-- The check lets the rules pass, and `advanceStack` does not return on them. -/
theorem hidden_left_recursion_hangs :
    WellFormed hiddenRules ∧ isLeftRecursive hiddenRules 4 = some false ∧
      ¬ NeverHangs hiddenRules :=
  ⟨hiddenRules_wellFormed, by decide,
    fun h => h.not_grows hiddenRules_wellFormed (0 : Fin 3) hiddenRules_grows⟩

end PxqLlama.Grammar
