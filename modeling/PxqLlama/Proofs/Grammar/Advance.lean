import PxqLlama.Grammar.Stacks
import PxqLlama.Lib.Grammars
import Mathlib.Data.List.GetD
import Mathlib.Data.Set.Finite.List

/-!
# `Proofs.Grammar.Advance`: when the expansion of a stack ends

A stack stands for the string of the symbols that its places have left (`stackString`), and a round
of `advanceStack` is a left expansion of that string by the productions of the rules
(`follows_step`, `exists_follows`). So the search on stacks ends when the expansions are bounded
(`advanceStack_terminates`), and a stack comes out when the string is live.
-/

namespace PxqLlama.Grammar

variable {rules : Rules}

/-! ### Places -/

/-- A place where an element starts: a reference, a character element or a token. -/
def StartsElement (e : Element) : Prop :=
  e.type ≠ .end ∧ e.type ≠ .alt ∧ e.type ≠ .charRngUpper ∧ e.type ≠ .charAlt

variable {e : Element} {p : Pos} {t s : Stack}

theorem StartsElement.not_end (h : StartsElement e) : isEndOfSequence e = false := by
  obtain ⟨hend, halt, -, -⟩ := h
  unfold isEndOfSequence
  split
  · exact absurd ‹_› hend
  · exact absurd ‹_› halt
  · rfl

theorem startsElement_or_end (e : Element) (hupper : e.type ≠ .charRngUpper)
    (halt : e.type ≠ .charAlt) : isEndOfSequence e = true ∨ StartsElement e := by
  unfold isEndOfSequence
  split
  · exact .inl rfl
  · exact .inl rfl
  · exact .inr ⟨‹_›, ‹_›, hupper, halt⟩

/-- The types of the parts of a character element. -/
def isCharPart (e : Element) : Bool :=
  e.type = .char || e.type = .charNot || e.type = .charAlt || e.type = .charRngUpper

/-- Behind what is no part of a character element another element starts, or the alternate ends. -/
theorem startsElement_of_follow {before after : Element} (h : mayFollow before after)
    (hpart : isCharPart before = false) : isEndOfSequence after = true ∨ StartsElement after := by
  unfold isCharPart at hpart
  simp only [Bool.or_eq_false_iff, decide_eq_false_iff_not] at hpart
  obtain ⟨⟨⟨hchar, hnot⟩, halt⟩, hupper⟩ := hpart
  apply startsElement_or_end
  · intro htype
    rcases h.1 htype with heq | heq | heq
    · exact hchar heq
    · exact hnot heq
    · exact halt heq
  · intro htype
    rcases h.2 htype with heq | heq | heq | heq
    · exact hchar heq
    · exact hnot heq
    · exact halt heq
    · exact hupper heq

theorem mayFollow_of_end (before : Element) {after : Element} (h : after.type = .end) :
    mayFollow before after := by
  unfold mayFollow
  rw [h]
  simp

theorem elementAt_of_le (h : (ruleAt rules p.rule).length ≤ p.idx) :
    elementAt rules p = ⟨.end, 0⟩ := by
  unfold elementAt
  rw [List.getD_eq_default _ _ h]

theorem elementAt_of_lt (h : p.idx < (ruleAt rules p.rule).length) :
    elementAt rules p = (ruleAt rules p.rule)[p.idx] := by
  unfold elementAt
  rw [List.getD_eq_getElem _ _ h]

theorem ruleAt_mem {r : Nat} (h : r < rules.length) : ruleAt rules r ∈ rules := by
  unfold ruleAt
  rw [List.getD_eq_getElem _ _ h]
  exact List.getElem_mem h

theorem ruleAt_of_le {r : Nat} (h : rules.length ≤ r) : ruleAt rules r = [] := by
  unfold ruleAt
  rw [List.getD_eq_default _ _ h]

/-- A place that is not an end lies in a rule. -/
theorem pos_lt (h : (elementAt rules p).type ≠ .end) :
    p.rule < rules.length ∧ p.idx < (ruleAt rules p.rule).length := by
  have hidx : p.idx < (ruleAt rules p.rule).length := by
    by_contra hle
    exact h (by rw [elementAt_of_le (Nat.le_of_not_lt hle)])
  refine ⟨?_, hidx⟩
  by_contra hle
  rw [ruleAt_of_le (Nat.le_of_not_lt hle)] at hidx
  exact Nat.not_lt_zero _ hidx

theorem mayFollow_first (hwf : WellFormed rules) (r : Nat) :
    mayFollow ⟨.alt, 0⟩ (elementAt rules ⟨r, 0⟩) := by
  by_cases hend : (elementAt rules ⟨r, 0⟩).type = .end
  · exact mayFollow_of_end _ hend
  · obtain ⟨hr, hidx⟩ := pos_lt hend
    have hchain := hwf.placed _ (ruleAt_mem hr)
    rw [elementAt_of_lt hidx]
    exact (List.isChain_iff_getElem.mp hchain) 0 (by simpa using hidx)

theorem mayFollow_next (hwf : WellFormed rules) (p : Pos) :
    mayFollow (elementAt rules p) (elementAt rules p.next) := by
  by_cases hend : (elementAt rules p.next).type = .end
  · exact mayFollow_of_end _ hend
  · obtain ⟨hr, hidx⟩ := pos_lt hend
    have hchain := hwf.placed _ (ruleAt_mem hr)
    have hlt : p.idx < (ruleAt rules p.rule).length := Nat.lt_of_succ_lt hidx
    rw [elementAt_of_lt hidx, elementAt_of_lt hlt]
    exact (List.isChain_iff_getElem.mp hchain) (p.idx + 1) (Nat.succ_lt_succ hidx)

/-! ### Alternates -/

theorem mem_laterAlternates {rule : Rule} {k idx : Nat} (h : idx ∈ laterAlternates rule k) :
    ∃ j, (rule.getD j ⟨.end, 0⟩).type = .alt ∧ idx = k + j + 1 := by
  induction rule generalizing k with
  | nil => cases h
  | cons e es ih =>
    have hlater : ∀ {k'}, idx ∈ laterAlternates es k' → k' = k + 1 →
        ∃ j, ((e :: es).getD j ⟨.end, 0⟩).type = .alt ∧ idx = k + j + 1 := by
      intro k' h hk
      obtain ⟨j, hj, rfl⟩ := ih h
      exact ⟨j + 1, hj, by omega⟩
    unfold laterAlternates at h
    split at h
    · cases h
    · rename_i htype
      rcases List.mem_cons.mp h with rfl | h
      · exact ⟨0, htype, rfl⟩
      · exact hlater h rfl
    · exact hlater h rfl

/-- At the start of an alternate an element starts, or the alternate is empty. -/
theorem startsElement_of_alternate (hwf : WellFormed rules) {r idx : Nat}
    (h : idx ∈ alternates (ruleAt rules r)) :
    isEndOfSequence (elementAt rules ⟨r, idx⟩) = true ∨
      StartsElement (elementAt rules ⟨r, idx⟩) := by
  have hfollow : ∃ before : Element, before.type = .alt ∧
      mayFollow before (elementAt rules ⟨r, idx⟩) := by
    rcases List.mem_cons.mp h with rfl | h
    · exact ⟨_, rfl, mayFollow_first hwf r⟩
    · obtain ⟨j, hj, rfl⟩ := mem_laterAlternates h
      rw [Nat.zero_add]
      exact ⟨elementAt rules ⟨r, j⟩, hj, mayFollow_next hwf ⟨r, j⟩⟩
  obtain ⟨before, halt, hfollow⟩ := hfollow
  exact startsElement_of_follow hfollow (by simp [isCharPart, halt])

/-- Behind a reference or a token an element starts, or the alternate ends. -/
theorem startsElement_next (hwf : WellFormed rules)
    (h : (elementAt rules p).type = .ruleRef ∨ isTokenElement (elementAt rules p) = true) :
    isEndOfSequence (elementAt rules p.next) = true ∨ StartsElement (elementAt rules p.next) := by
  refine startsElement_of_follow (mayFollow_next hwf p) ?_
  unfold isTokenElement at h
  simp only [Bool.or_eq_true, decide_eq_true_eq] at h
  rcases h with h | h | h <;> simp [isCharPart, h]

/-! ### Strings of symbols -/

/-- The symbol of an element. Which characters or tokens match does not matter here, and the further
parts of a character element count as symbols of their own. -/
def symbolOf (rules : Rules) (e : Element) : Symbol Unit (Fin rules.length) :=
  if h : e.type = .ruleRef ∧ e.value < rules.length then .nonterminal ⟨e.value, h.2⟩
  else .terminal ()

/-- What is left of the alternate at a place. -/
def sequenceAt (rules : Rules) (p : Pos) : List (Symbol Unit (Fin rules.length)) :=
  (((ruleAt rules p.rule).drop p.idx).takeWhile fun e => !isEndOfSequence e).map (symbolOf rules)

/-- The alternates of a rule. -/
def productions (rules : Rules) (r : Fin rules.length) :
    List (List (Symbol Unit (Fin rules.length))) :=
  (alternates (ruleAt rules r)).map fun idx => sequenceAt rules ⟨r, idx⟩

def stackString (rules : Rules) (stack : Stack) : List (Symbol Unit (Fin rules.length)) :=
  stack.flatMap (sequenceAt rules)

theorem sequenceAt_of_end (h : isEndOfSequence (elementAt rules p) = true) :
    sequenceAt rules p = [] := by
  unfold sequenceAt
  by_cases hlt : p.idx < (ruleAt rules p.rule).length
  · rw [elementAt_of_lt hlt] at h
    rw [List.drop_eq_getElem_cons hlt, List.takeWhile_cons_of_neg (by simp [h])]
    rfl
  · rw [List.drop_eq_nil_of_le (Nat.le_of_not_lt hlt)]
    rfl

theorem sequenceAt_cons (h : isEndOfSequence (elementAt rules p) = false) :
    sequenceAt rules p = symbolOf rules (elementAt rules p) :: sequenceAt rules p.next := by
  have hlt : p.idx < (ruleAt rules p.rule).length := by
    by_contra hle
    rw [elementAt_of_le (Nat.le_of_not_lt hle)] at h
    cases h
  unfold sequenceAt
  rw [elementAt_of_lt hlt] at h ⊢
  rw [List.drop_eq_getElem_cons hlt, List.takeWhile_cons_of_pos (by simp [h])]
  rfl

theorem stackString_pushPos (p : Pos) (stack : Stack) :
    stackString rules (pushPos rules p stack) = sequenceAt rules p ++ stackString rules stack := by
  unfold pushPos
  split
  · rw [sequenceAt_of_end ‹_›]
    rfl
  · rfl

theorem symbolOf_ref (htype : e.type = .ruleRef) (hlt : e.value < rules.length) :
    symbolOf rules e = .nonterminal ⟨e.value, hlt⟩ := dif_pos ⟨htype, hlt⟩

theorem symbolOf_of_ne (htype : e.type ≠ .ruleRef) :
    symbolOf rules e = .terminal () := dif_neg fun h => htype h.1

theorem productions_ne_nil (r : Fin rules.length) : productions rules r ≠ [] := by
  unfold productions alternates
  simp

theorem length_sequenceAt_le (p : Pos) :
    (sequenceAt rules p).length ≤ (ruleAt rules p.rule).length := by
  unfold sequenceAt
  rw [List.length_map]
  refine (List.takeWhile_sublist _).length_le.trans ?_
  rw [List.length_drop]
  exact Nat.sub_le _ _

/-- The alternates of all rules have one bound. -/
theorem exists_length_productions (rules : Rules) :
    ∃ M, ∀ r, ∀ α ∈ productions rules r, α.length ≤ M := by
  obtain ⟨M, hM⟩ := (Set.finite_range fun r : Fin rules.length =>
    (ruleAt rules r).length).bddAbove
  refine ⟨M, fun r α hα => ?_⟩
  obtain ⟨idx, -, rfl⟩ := List.mem_map.mp hα
  exact (length_sequenceAt_le _).trans (hM (Set.mem_range_self r))

/-! ### Stacks -/

/-- The places on a stack are ones where an element starts. -/
def ValidStack (rules : Rules) (stack : Stack) : Prop :=
  ∀ p ∈ stack, StartsElement (elementAt rules p)

theorem validStack_nil : ValidStack rules [] := by
  intro p hp
  cases hp

theorem ValidStack.tail {p : Pos} {stack : Stack} (h : ValidStack rules (p :: stack)) :
    ValidStack rules stack :=
  fun q hq => h q (List.mem_cons_of_mem p hq)

theorem ValidStack.push {stack : Stack} (h : ValidStack rules stack)
    (hp : isEndOfSequence (elementAt rules p) = true ∨ StartsElement (elementAt rules p)) :
    ValidStack rules (pushPos rules p stack) := by
  unfold pushPos
  split
  · exact h
  · rename_i hend
    intro q hq
    rcases List.mem_cons.mp hq with rfl | hq
    · exact hp.resolve_left hend
    · exact h q hq

/-- What can be on top of a stack. -/
theorem visitStack_cases (stack : Stack) (h : StartsElement (elementAt rules p)) :
    ((elementAt rules p).type = .ruleRef ∧ visitStack rules (p :: stack) =
      .next ((alternates (ruleAt rules (elementAt rules p).value)).map fun idx =>
        pushPos rules ⟨(elementAt rules p).value, idx⟩ (pushPos rules p.next stack))) ∨
    ((elementAt rules p).type ≠ .ruleRef ∧ visitStack rules (p :: stack) = .leaf) := by
  obtain ⟨hend, halt, hupper, hpart⟩ := h
  simp only [visitStack]
  cases htype : (elementAt rules p).type with
  | ruleRef => exact .inl ⟨rfl, rfl⟩
  | «end» => exact absurd htype hend
  | alt => exact absurd htype halt
  | charRngUpper => exact absurd htype hupper
  | charAlt => exact absurd htype hpart
  | char | charNot | charAny | token | tokenNot => exact .inr ⟨by simp, rfl⟩

theorem visitStack_ne_abort {stack : Stack} (h : ValidStack rules stack) :
    visitStack rules stack ≠ .abort := by
  cases stack with
  | nil => simp [visitStack]
  | cons p stack =>
    rcases visitStack_cases stack (h p List.mem_cons_self) with ⟨-, heq⟩ | ⟨-, heq⟩
    · rw [heq]; simp
    · rw [heq]; simp

/-- What follows a stack. -/
theorem follows_iff {p : Pos} {stack t : Stack} (h : StartsElement (elementAt rules p)) :
    Follows (visitStack rules) (p :: stack) t ↔ (elementAt rules p).type = .ruleRef ∧
      ∃ idx ∈ alternates (ruleAt rules (elementAt rules p).value),
        t = pushPos rules ⟨(elementAt rules p).value, idx⟩ (pushPos rules p.next stack) := by
  unfold Follows
  rcases visitStack_cases stack h with ⟨href, heq⟩ | ⟨href, heq⟩
  · rw [heq]
    constructor
    · rintro ⟨succs, hsuccs, ht⟩
      cases hsuccs
      obtain ⟨idx, hidx, rfl⟩ := List.mem_map.mp ht
      exact ⟨href, idx, hidx, rfl⟩
    · rintro ⟨-, idx, hidx, rfl⟩
      exact ⟨_, rfl, List.mem_map.mpr ⟨idx, hidx, rfl⟩⟩
  · rw [heq]
    constructor
    · rintro ⟨succs, hsuccs, -⟩
      cases hsuccs
    · rintro ⟨href', -⟩
      exact absurd href' href

theorem not_follows_nil : ¬ Follows (visitStack rules) [] t := by
  rintro ⟨succs, hsuccs, -⟩
  cases hsuccs

theorem stackString_terminal (hp : StartsElement (elementAt rules p))
    (href : (elementAt rules p).type ≠ .ruleRef) (stack : Stack) :
    stackString rules (p :: stack) = .terminal () ::
      (sequenceAt rules p.next ++ stackString rules stack) := by
  show sequenceAt rules p ++ _ = _
  rw [sequenceAt_cons hp.not_end, symbolOf_of_ne href]
  rfl

section

variable (hwf : WellFormed rules)

include hwf

theorem ValidStack.follows (h : ValidStack rules s) (hst : Follows (visitStack rules) s t) :
    ValidStack rules t := by
  cases s with
  | nil => exact absurd hst not_follows_nil
  | cons p stack =>
    obtain ⟨href, idx, hidx, rfl⟩ := (follows_iff (h p List.mem_cons_self)).mp hst
    exact (h.tail.push (startsElement_next hwf (.inl href))).push
      (startsElement_of_alternate hwf hidx)

theorem ValidStack.reaches (h : ValidStack rules s) (hst : Reaches (visitStack rules) s t) :
    ValidStack rules t := by
  induction hst with
  | refl => exact h
  | tail _ hstep ih => exact ih.follows hwf hstep

/-- A reference on a stack is to a rule that exists. -/
theorem ref_lt (href : (elementAt rules p).type = .ruleRef) :
    (elementAt rules p).value < rules.length := by
  obtain ⟨hr, hidx⟩ := pos_lt (p := p) (by rw [href]; simp)
  have hmem : elementAt rules p ∈ ruleAt rules p.rule := by
    rw [elementAt_of_lt hidx]
    exact List.getElem_mem hidx
  exact hwf.refs _ (ruleAt_mem hr) _ hmem href

theorem stackString_ref (href : (elementAt rules p).type = .ruleRef) (stack : Stack) :
    stackString rules (p :: stack) = .nonterminal ⟨(elementAt rules p).value, ref_lt hwf href⟩ ::
      (sequenceAt rules p.next ++ stackString rules stack) := by
  have hend : isEndOfSequence (elementAt rules p) = false := by
    unfold isEndOfSequence
    rw [href]
  show sequenceAt rules p ++ _ = _
  rw [sequenceAt_cons hend, symbolOf_ref href (ref_lt hwf href)]
  rfl

/-- A round of the search is a left expansion. -/
theorem follows_step (h : ValidStack rules s) (hst : Follows (visitStack rules) s t) :
    LeftStep (productions rules) (stackString rules s) (stackString rules t) := by
  cases s with
  | nil => exact absurd hst not_follows_nil
  | cons p stack =>
    obtain ⟨href, idx, hidx, rfl⟩ := (follows_iff (h p List.mem_cons_self)).mp hst
    rw [stackString_ref hwf href, stackString_pushPos, stackString_pushPos]
    exact .expand (List.mem_map.mpr ⟨idx, hidx, rfl⟩)

theorem reaches_leftReach (h : ValidStack rules s) (hst : Reaches (visitStack rules) s t) :
    LeftReach (productions rules) (stackString rules s) (stackString rules t) := by
  induction hst with
  | refl => exact .refl
  | tail hst hstep ih => exact ih.tail (follows_step hwf (h.reaches hwf hst) hstep)

variable {u : List (Symbol Unit (Fin rules.length))}

/-- A left expansion is a round of the search. -/
theorem exists_follows (h : ValidStack rules s)
    (hstep : LeftStep (productions rules) (stackString rules s) u) :
    ∃ t, Follows (visitStack rules) s t ∧ stackString rules t = u := by
  cases s with
  | nil => exact absurd hstep not_leftStep_nil
  | cons p stack =>
    have hp := h p List.mem_cons_self
    by_cases href : (elementAt rules p).type = .ruleRef
    · rw [stackString_ref hwf href] at hstep
      cases hstep with
      | expand hα =>
        obtain ⟨idx, hidx, rfl⟩ := List.mem_map.mp hα
        refine ⟨_, (follows_iff hp).mpr ⟨href, idx, hidx, rfl⟩, ?_⟩
        rw [stackString_pushPos, stackString_pushPos]
    · rw [stackString_terminal hp href] at hstep
      exact absurd hstep not_leftStep_terminal

theorem exists_reaches (h : ValidStack rules s)
    (hreach : LeftReach (productions rules) (stackString rules s) u) :
    ∃ t, Reaches (visitStack rules) s t ∧ stackString rules t = u := by
  induction hreach with
  | refl => exact ⟨s, .refl, rfl⟩
  | tail _ hstep ih =>
    obtain ⟨t, hst, rfl⟩ := ih
    obtain ⟨t', htt', heq⟩ := exists_follows hwf (h.reaches hwf hst) hstep
    exact ⟨t', hst.tail htt', heq⟩

end

/-- A stack at which the search stops stands for a string that is not expanded further. -/
theorem leaf_iff (hwf : WellFormed rules) (h : ValidStack rules s) :
    visitStack rules s = .leaf ↔ LeftLeaf (stackString rules s) := by
  cases s with
  | nil => exact ⟨fun _ => leftLeaf_nil, fun _ => rfl⟩
  | cons p stack =>
    have hp := h p List.mem_cons_self
    rcases visitStack_cases stack hp with ⟨href, heq⟩ | ⟨href, heq⟩
    · rw [heq, stackString_ref hwf href]
      constructor
      · intro hleaf
        cases hleaf
      · intro hleaf
        exact absurd rfl (hleaf _ _)
    · rw [heq, stackString_terminal hp href]
      exact ⟨fun _ => leftLeaf_terminal _ _, fun _ => rfl⟩

/-! ### Behind a character element -/

/-- The group of a character element ends before what is no part of one. -/
theorem charGroup_behind {es : List Element} (hchain : List.IsChain mayFollow es) :
    (es.getD (charGroup es).2 ⟨.end, 0⟩).type ≠ .charRngUpper ∧
      (es.getD (charGroup es).2 ⟨.end, 0⟩).type ≠ .charAlt := by
  induction es using charGroup.induct with
  | case1 => simp [charGroup]
  | case2 e => simp [charGroup]
  | case3 e upper rest hupper ih =>
    have hrest := hchain.tail.tail
    simp only [charGroup, if_pos hupper]
    split
    · exact ih hrest
    · rename_i hpart
      cases rest with
      | nil => simp
      | cons e' rest =>
        have hfollow : mayFollow upper e' := (List.isChain_cons_cons.mp hchain.tail).1
        refine ⟨fun htype => ?_, fun htype => hpart (congrArg some htype)⟩
        have hbefore := hfollow.1 htype
        rw [hupper] at hbefore
        simp at hbefore
  | case4 e upper rest hupper ih =>
    simp only [charGroup, if_neg hupper]
    split
    · exact ih hchain.tail
    · rename_i hpart
      exact ⟨hupper, hpart⟩

/-- Behind a character element another one starts, or the alternate ends. -/
theorem startsElement_behind (hwf : WellFormed rules) (c : Nat)
    (hp : (elementAt rules p).type ≠ .end) :
    isEndOfSequence (elementAt rules (matchChar rules p c).2) = true ∨
      StartsElement (elementAt rules (matchChar rules p c).2) := by
  obtain ⟨hr, hidx⟩ := pos_lt hp
  have hchain : List.IsChain mayFollow ((ruleAt rules p.rule).drop p.idx) :=
    (hwf.placed _ (ruleAt_mem hr)).tail.drop p.idx
  have hat : elementAt rules (matchChar rules p c).2
      = ((ruleAt rules p.rule).drop p.idx).getD (charRanges rules p).2 ⟨.end, 0⟩ := by
    show (ruleAt rules p.rule).getD (p.idx + (charRanges rules p).2) _ = _
    rw [List.getD_eq_getElem?_getD, List.getD_eq_getElem?_getD, List.getElem?_drop]
  obtain ⟨hupper, halt⟩ := charGroup_behind hchain
  rw [hat]
  exact startsElement_or_end _ hupper halt

/-! ### The search ends -/

theorem length_le_stackString (h : ValidStack rules s) :
    s.length ≤ (stackString rules s).length := by
  induction s with
  | nil => exact Nat.zero_le _
  | cons p s ih =>
    have hp := (h p List.mem_cons_self).not_end
    have hs := ih h.tail
    show s.length + 1 ≤ (sequenceAt rules p ++ stackString rules s).length
    rw [sequenceAt_cons hp, List.length_append, List.length_cons]
    omega

theorem finite_startsElement (rules : Rules) :
    {p | StartsElement (elementAt rules p)}.Finite := by
  obtain ⟨M, hM⟩ := (Set.finite_range fun r : Fin rules.length =>
    (ruleAt rules r).length).bddAbove
  refine (((Set.finite_lt_nat rules.length).prod (Set.finite_lt_nat M)).image
    fun q => (⟨q.1, q.2⟩ : Pos)).subset ?_
  intro p hp
  obtain ⟨hr, hidx⟩ := pos_lt hp.1
  have hlen : (ruleAt rules p.rule).length ≤ M := hM (Set.mem_range_self (⟨p.rule, hr⟩ : Fin _))
  exact ⟨(p.rule, p.idx), ⟨hr, Nat.lt_of_lt_of_le hidx hlen⟩, rfl⟩

theorem finite_lists {α : Type} {S : Set α} (hS : S.Finite) (b : Nat) :
    {l : List α | (∀ x ∈ l, x ∈ S) ∧ l.length ≤ b}.Finite := by
  have := hS.to_subtype
  refine ((List.finite_length_le S b).image (List.map Subtype.val)).subset ?_
  rintro l ⟨hmem, hlen⟩
  exact ⟨l.pmap Subtype.mk hmem, by simpa using hlen, by simp [List.map_pmap]⟩

/-- What comes out of `advanceStack`. -/
theorem mem_advanceStack {fuel : Nat} {newStacks out : Stacks}
    (hout : advanceStack rules fuel s newStacks = some out) :
    t ∈ out ↔ t ∈ newStacks ∨ Reaches (visitStack rules) s t ∧ visitStack rules t = .leaf :=
  (explore_spec hout).2.2 t

section

variable (hwf : WellFormed rules)

include hwf

/-- What can be reached from a stack is finite exactly when the expansions of its string are
bounded. -/
theorem finite_reaches_iff (h : ValidStack rules s) :
    {t | Reaches (visitStack rules) s t}.Finite ↔
      ∃ b, ∀ u, LeftReach (productions rules) (stackString rules s) u → u.length ≤ b := by
  constructor
  · intro hfinite
    obtain ⟨b, hb⟩ := (hfinite.image fun t => (stackString rules t).length).bddAbove
    refine ⟨b, fun u hu => ?_⟩
    obtain ⟨t, hst, rfl⟩ := exists_reaches hwf h hu
    exact hb ⟨t, hst, rfl⟩
  · rintro ⟨b, hb⟩
    refine (finite_lists (finite_startsElement rules) b).subset fun t hst => ?_
    have ht := h.reaches hwf hst
    exact ⟨ht, (length_le_stackString ht).trans (hb _ (reaches_leftReach hwf h hst))⟩

/-- Where no rule grows, `advanceStack` returns, and where moreover all alternates are live, with
at least one stack. -/
theorem advanceStack_terminates (h : ValidStack rules s)
    (hgrows : ∀ r, ¬ Grows (productions rules) r) (newStacks : Stacks) :
    ∃ fuel out, advanceStack rules fuel s newStacks = some out := by
  obtain ⟨M, hM⟩ := exists_length_productions rules
  have hfinite := (finite_reaches_iff hwf h).mpr (bounded_of_not_grows hM hgrows _)
  exact explore_terminates hfinite (fun t hst => visitStack_ne_abort (h.reaches hwf hst)) newStacks

theorem exists_leaf_iff (h : ValidStack rules s) :
    (∃ t, Reaches (visitStack rules) s t ∧ visitStack rules t = .leaf) ↔
      Live (productions rules) (stackString rules s) := by
  constructor
  · rintro ⟨t, hst, hleaf⟩
    exact ⟨_, reaches_leftReach hwf h hst, (leaf_iff hwf (h.reaches hwf hst)).mp hleaf⟩
  · rintro ⟨u, hu, hleaf⟩
    obtain ⟨t, hst, rfl⟩ := exists_reaches hwf h hu
    exact ⟨t, hst, (leaf_iff hwf (h.reaches hwf hst)).mpr hleaf⟩

/-- The stacks that are passed to `advanceStack` in a run are valid. -/
theorem passed_valid {start : Nat} (h : Passed rules start s) : ValidStack rules s := by
  induction h with
  | start hidx => exact validStack_nil.push (startsElement_of_alternate hwf hidx)
  | @chr stack rest fuel out p c _ hadvance hout _ _ ih =>
    rcases (mem_advanceStack hadvance).mp hout with hnil | ⟨hst, -⟩
    · cases hnil
    · have hvalid := ih.reaches hwf hst
      exact hvalid.tail.push (startsElement_behind hwf c (hvalid p List.mem_cons_self).1)
  | @token stack rest fuel out p id _ hadvance hout htoken _ ih =>
    rcases (mem_advanceStack hadvance).mp hout with hnil | ⟨hst, -⟩
    · cases hnil
    · have hvalid := ih.reaches hwf hst
      exact hvalid.tail.push (startsElement_next hwf (.inr htoken))

end

end PxqLlama.Grammar
