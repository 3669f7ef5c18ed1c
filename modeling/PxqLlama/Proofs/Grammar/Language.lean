import PxqLlama.Grammar.Language
import PxqLlama.Proofs.Grammar.Replay

/-!
# `Proofs.Grammar.Language`: the stack machine recognises the language

A stack stands for the string of what its places have left, now with the classes of its character
elements. Three facts about the words of that string make up the proof: the stacks that come out of
`advanceStack` have together the words of the stack that went in (`exists_leads_words`,
`Leads.words`), a character moves a stack to the stacks for the rest of the word
(`walk_words`), and the empty stack is the only one at a leaf that has the empty word.

The string skips the further parts of a class, while the loop of `llama_grammar_match_char` walks
over them. That both find the same class and the same place behind it is `charGroup_spec`. A text
that comes in tokens is read by `acceptPieces_recognises`.
-/

namespace PxqLlama.Grammar

variable {rules : Rules}

/-! ### Classes -/

/-- The elements of a group, each with the one behind it. -/
def pairsOf (group : List Element) : List (Element × Element) :=
  group.zip (group.tail ++ [⟨.end, 0⟩])

/-- The part that an element is, given the one behind it. -/
def partOf (p : Element × Element) : Option CharRange :=
  if p.1.type = .charRngUpper then none
  else if p.2.type = .charRngUpper then some (.range p.1.value p.2.value)
  else if p.1.type = .charAny then some .any
  else some (.range p.1.value p.1.value)

theorem classParts_cons (e : Element) (es : List Element) :
    classParts (e :: es) = (pairsOf (e :: es.takeWhile isFurtherPart)).filterMap partOf := rfl

theorem pairsOf_cons (e f : Element) (es : List Element) :
    pairsOf (e :: f :: es) = (e, f) :: pairsOf (f :: es) := rfl

theorem pairsOf_single (e : Element) : pairsOf [e] = [(e, ⟨.end, 0⟩)] := rfl

theorem isFurtherPart_iff {e : Element} :
    isFurtherPart e = true ↔ e.type = .charAlt ∨ e.type = .charRngUpper := by
  simp [isFurtherPart]

theorem symbolsOf_further {e : Element} (h : isFurtherPart e = true) (es : List Element) :
    symbolsOf (e :: es) = symbolsOf es := by
  rcases isFurtherPart_iff.1 h with h | h
  · simp [symbolsOf, h]
  · simp [symbolsOf, h]

/-- The loop over the parts of a class finds the class, and stops behind its last part. -/
theorem charGroup_spec {es : List Element} (hchain : List.IsChain mayFollow es)
    (hhead : ∀ e ∈ es.head?, e.type ≠ .charRngUpper) :
    (charGroup es).1 = classParts es ∧ symbolsOf (es.drop (charGroup es).2) = symbolsOf es.tail := by
  induction es using charGroup.induct with
  | case1 => exact ⟨rfl, rfl⟩
  | case2 e =>
    have hne : e.type ≠ .charRngUpper := hhead e rfl
    refine ⟨?_, rfl⟩
    show [_] = (pairsOf [e]).filterMap partOf
    rw [pairsOf_single]
    by_cases hany : e.type = .charAny <;> simp [partOf, hne, hany]
  | case3 e upper rest hupper ih =>
    have hne : e.type ≠ .charRngUpper := hhead e rfl
    have hpart : partOf (e, upper) = some (.range e.value upper.value) := by
      simp [partOf, hne, hupper]
    have hskip : ∀ f, partOf (upper, f) = none := fun f => if_pos hupper
    have hfurther : isFurtherPart upper = true := isFurtherPart_iff.2 (.inr hupper)
    simp only [charGroup, if_pos hupper, List.drop_succ_cons, List.tail_cons,
      symbolsOf_further hfurther, classParts_cons, List.takeWhile_cons_of_pos hfurther, pairsOf_cons,
      List.filterMap_cons, hpart]
    cases rest with
    | nil => simp [pairsOf_single, hskip]
    | cons a rest =>
      by_cases halt : a.type = .charAlt
      · -- The class goes on with another part.
        have ha : isFurtherPart a = true := isFurtherPart_iff.2 (.inl halt)
        obtain ⟨hparts, hbehind⟩ := ih hchain.tail.tail (by simp [halt])
        rw [classParts_cons] at hparts
        simp only [List.head?_cons, Option.map_some, halt, if_true, hparts,
          List.takeWhile_cons_of_pos ha, pairsOf_cons, List.filterMap_cons, hskip]
        exact ⟨trivial, hbehind.trans (symbolsOf_further ha rest).symm⟩
      · -- What is behind an upper end is no second one.
        have ha : isFurtherPart a = false := by
          have hfollow : mayFollow upper a := (List.isChain_cons_cons.mp hchain.tail).1
          rw [Bool.eq_false_iff, Ne, isFurtherPart_iff, not_or]
          refine ⟨halt, fun htype => ?_⟩
          have hbefore := hfollow.1 htype
          rw [hupper] at hbefore
          simp at hbefore
        simp [halt, List.takeWhile_cons_of_neg, ha, pairsOf_single, hskip]
  | case4 e upper rest hupper ih =>
    have hne : e.type ≠ .charRngUpper := hhead e rfl
    by_cases halt : upper.type = .charAlt
    · have hfurther : isFurtherPart upper = true := isFurtherPart_iff.2 (.inl halt)
      obtain ⟨hparts, hbehind⟩ := ih hchain.tail (by simp [hupper])
      have hpart : partOf (e, upper) =
          some (if e.type = .charAny then .any else .range e.value e.value) := by
        by_cases hany : e.type = .charAny <;> simp [partOf, hne, hupper, hany]
      simp only [charGroup, if_neg hupper, if_pos halt, List.drop_succ_cons, List.tail_cons,
        symbolsOf_further hfurther, classParts_cons, List.takeWhile_cons_of_pos hfurther,
        pairsOf_cons, List.filterMap_cons, hpart, hparts]
      exact ⟨trivial, hbehind⟩
    · have hfurther : isFurtherPart upper = false := by
        rw [Bool.eq_false_iff, Ne, isFurtherPart_iff, not_or]
        exact ⟨halt, hupper⟩
      have hpart : partOf (e, ⟨.end, 0⟩) =
          some (if e.type = .charAny then .any else .range e.value e.value) := by
        by_cases hany : e.type = .charAny <;> simp [partOf, hne, hany]
      simp [charGroup, hupper, halt, classParts_cons, List.takeWhile_cons_of_neg, hfurther,
        pairsOf_single, hpart]

/-! ### The string of a place -/

variable {p : Pos} {s : Stack} {w : List Nat}

theorem symbolsAt_of_end (h : isEndOfSequence (elementAt rules p) = true) :
    symbolsAt rules p = [] := by
  unfold symbolsAt
  by_cases hlt : p.idx < (ruleAt rules p.rule).length
  · rw [elementAt_of_lt hlt] at h
    rw [List.drop_eq_getElem_cons hlt, symbolsOf]
    unfold isEndOfSequence at h
    split at h
    · rename_i htype
      simp only [htype]
    · rename_i htype
      simp only [htype]
    · cases h
  · rw [List.drop_eq_nil_of_le (Nat.le_of_not_lt hlt), symbolsOf]

/-- A place where an element starts, with the elements from it on. -/
theorem drop_eq_of_starts (h : StartsElement (elementAt rules p)) :
    (ruleAt rules p.rule).drop p.idx =
      elementAt rules p :: (ruleAt rules p.rule).drop (p.idx + 1) := by
  have hlt := (pos_lt h.1).2
  rw [elementAt_of_lt hlt, List.drop_eq_getElem_cons hlt]

theorem symbolsAt_ref (h : (elementAt rules p).type = .ruleRef) :
    symbolsAt rules p = .nonterminal (elementAt rules p).value :: symbolsAt rules p.next := by
  have hstarts : StartsElement (elementAt rules p) := by simp [StartsElement, h]
  unfold symbolsAt
  rw [drop_eq_of_starts hstarts, symbolsOf]
  simp only [h]
  rfl

theorem symbolsAt_token (h : isTokenElement (elementAt rules p) = true) :
    symbolsAt rules p = .terminal ⟨true, []⟩ :: symbolsAt rules p.next := by
  unfold isTokenElement at h
  simp only [Bool.or_eq_true, decide_eq_true_eq] at h
  have hstarts : StartsElement (elementAt rules p) := by
    rcases h with h | h <;> simp [StartsElement, h]
  unfold symbolsAt
  rw [drop_eq_of_starts hstarts, symbolsOf]
  rcases h with h | h
  · simp only [h]
    rfl
  · simp only [h]
    rfl

/-- A character element. -/
theorem char_of_leaf (h : StartsElement (elementAt rules p))
    (href : (elementAt rules p).type ≠ .ruleRef)
    (htoken : isTokenElement (elementAt rules p) = false) :
    (elementAt rules p).type = .char ∨ (elementAt rules p).type = .charAny ∨
      (elementAt rules p).type = .charNot := by
  obtain ⟨hend, halt, hupper, hpart⟩ := h
  unfold isTokenElement at htoken
  cases htype : (elementAt rules p).type <;> simp_all

/-- The class of a character element holds for what the element matches, and the string goes on
behind the element. -/
theorem symbolsAt_char (hwf : WellFormed rules) (h : StartsElement (elementAt rules p))
    (href : (elementAt rules p).type ≠ .ruleRef)
    (htoken : isTokenElement (elementAt rules p) = false) :
    ∃ t : CharClass, (∀ c, t.Holds c ↔ (matchChar rules p c).1 = true) ∧
      ∀ c, symbolsAt rules p = .terminal t :: symbolsAt rules (matchChar rules p c).2 := by
  have hdrop := drop_eq_of_starts h
  have hchain : List.IsChain mayFollow ((ruleAt rules p.rule).drop p.idx) :=
    (hwf.placed _ (ruleAt_mem (pos_lt h.1).1)).tail.drop p.idx
  have hhead : ∀ e ∈ ((ruleAt rules p.rule).drop p.idx).head?, e.type ≠ .charRngUpper := by
    rw [hdrop]
    intro e he
    obtain rfl := Option.some.inj he
    exact h.2.2.1
  obtain ⟨hparts, hbehind⟩ := charGroup_spec hchain hhead
  have hnext : ∀ c, symbolsAt rules (matchChar rules p c).2 =
      symbolsOf ((ruleAt rules p.rule).drop (p.idx + 1)) := by
    intro c
    show symbolsOf ((ruleAt rules p.rule).drop (p.idx + (charRanges rules p).2)) = _
    rw [← List.drop_drop, ← List.tail_drop]
    exact hbehind
  refine ⟨⟨isPositiveChar (elementAt rules p), classParts ((ruleAt rules p.rule).drop p.idx)⟩,
    fun c => ?_, fun c => ?_⟩
  · rw [← hparts]
    show _ ↔ ((charRanges rules p).1.any (CharRange.holds c) ==
      isPositiveChar (elementAt rules p)) = true
    cases hpos : isPositiveChar (elementAt rules p) with
    | true => simp [CharClass.Holds, charRanges]
    | false => simp [CharClass.Holds, charRanges]
  · rw [hnext c]
    unfold symbolsAt
    rw [hdrop, symbolsOf]
    rcases char_of_leaf h href htoken with htype | htype | htype
    · simp [htype, isPositiveChar]
    · simp [htype, isPositiveChar]
    · simp [htype, isPositiveChar]

/-! ### The words of a stack -/

/-- The string that a stack stands for. -/
def stackSymbols (rules : Rules) (stack : Stack) : List (Symbol CharClass Nat) :=
  stack.flatMap (symbolsAt rules)

/-- The stack accepts the word. -/
def StackWords (rules : Rules) (stack : Stack) (w : List Nat) : Prop :=
  Words (alternateStrings rules) CharClass.Holds (stackSymbols rules stack) w

theorem stackSymbols_cons (p : Pos) (stack : Stack) :
    stackSymbols rules (p :: stack) = symbolsAt rules p ++ stackSymbols rules stack := rfl

theorem stackSymbols_pushPos (p : Pos) (stack : Stack) :
    stackSymbols rules (pushPos rules p stack) =
      symbolsAt rules p ++ stackSymbols rules stack := by
  unfold pushPos
  split
  · rw [symbolsAt_of_end ‹_›]
    rfl
  · rfl

/-- A stack that follows another has words of it. -/
theorem StackWords.of_follows {t : Stack} (hs : ValidStack rules s)
    (hst : Follows (visitStack rules) s t) (h : StackWords rules t w) : StackWords rules s w := by
  cases s with
  | nil => exact absurd hst not_follows_nil
  | cons p stack =>
    obtain ⟨href, idx, hidx, rfl⟩ := (follows_iff (hs p List.mem_cons_self)).mp hst
    unfold StackWords at h ⊢
    rw [stackSymbols_pushPos, stackSymbols_pushPos] at h
    rw [stackSymbols_cons, symbolsAt_ref href, List.cons_append]
    exact words_nonterminal_iff.2 ⟨_, List.mem_map_of_mem hidx, h⟩

theorem Leads.words (hwf : WellFormed rules) {t : Stack} (hst : Leads rules s t)
    (hs : ValidStack rules s) (h : StackWords rules t w) : StackWords rules s w := by
  obtain ⟨hreach, -⟩ := hst
  induction hreach with
  | refl => exact h
  | tail hreach hstep ih => exact ih (h.of_follows (hs.reaches hwf hreach) hstep)

theorem leaf_or_ref (hs : ValidStack rules s) : visitStack rules s = .leaf ∨
    ∃ p stack, s = p :: stack ∧ (elementAt rules p).type = .ruleRef := by
  cases s with
  | nil => exact .inl rfl
  | cons p stack =>
    rcases visitStack_cases stack (hs p List.mem_cons_self) with ⟨href, -⟩ | ⟨-, hleaf⟩
    · exact .inr ⟨p, stack, rfl, href⟩
    · exact .inl hleaf

/-- Each word of a stack is a word of a stack that comes out of `advanceStack`. The induction is on
the word's derivation from the left, so it needs no bound on the expansions. -/
theorem exists_leads_words (hwf : WellFormed rules) {x : List (Symbol CharClass Nat)}
    (h : LeftWords (alternateStrings rules) CharClass.Holds x w) (hs : ValidStack rules s)
    (hx : stackSymbols rules s = x) : ∃ t, Leads rules s t ∧ StackWords rules t w := by
  have hself : ∀ {s : Stack}, visitStack rules s = .leaf → LeftWords (alternateStrings rules)
      CharClass.Holds (stackSymbols rules s) w → ∃ t, Leads rules s t ∧ StackWords rules t w :=
    fun hleaf h => ⟨_, ⟨.refl, hleaf⟩, leftWords_iff.1 h⟩
  induction h generalizing s with
  | nil =>
    rcases leaf_or_ref hs with hleaf | ⟨p, stack, rfl, href⟩
    · exact hself hleaf (hx ▸ .nil)
    · rw [stackSymbols_cons, symbolsAt_ref href] at hx
      cases hx
  | terminal hc hrest _ =>
    rcases leaf_or_ref hs with hleaf | ⟨p, stack, rfl, href⟩
    · exact hself hleaf (hx ▸ .terminal hc hrest)
    · rw [stackSymbols_cons, symbolsAt_ref href] at hx
      cases hx
  | expand hα hrest ih =>
    rcases leaf_or_ref hs with hleaf | ⟨p, stack, rfl, href⟩
    · exact hself hleaf (hx ▸ .expand hα hrest)
    · rw [stackSymbols_cons, symbolsAt_ref href, List.cons_append] at hx
      obtain ⟨hvalue, rfl⟩ := List.cons.inj hx
      obtain rfl := Symbol.nonterminal.inj hvalue
      obtain ⟨idx, hidx, rfl⟩ := List.mem_map.1 hα
      -- The alternate goes on the stack.
      have hfollows := (@follows_iff rules p stack _ (hs p List.mem_cons_self)).mpr
        ⟨href, idx, hidx, rfl⟩
      obtain ⟨t, ⟨hreach, hleaf⟩, hw⟩ := ih (hs.follows hwf hfollows)
        (by rw [stackSymbols_pushPos, stackSymbols_pushPos]) hself
      exact ⟨t, ⟨hreach.head hfollows, hleaf⟩, hw⟩

/-! ### A character -/

variable (hreg : Regular rules)

include hreg

/-- A stack that came out of `advanceStack` takes the first character of each of its words. -/
theorem charStep_words {c : Nat} (hs : Ready rules s) :
    StackWords rules s (c :: w) ↔ ∃ t, CharStep rules c s t ∧ StackWords rules t w := by
  cases s with
  | nil =>
    constructor
    · intro h
      cases words_nil_iff.1 h
    · rintro ⟨t, ⟨p, rest, hcons, -⟩, -⟩
      cases hcons
  | cons p rest =>
    have hp := hs.valid p List.mem_cons_self
    have href : (elementAt rules p).type ≠ .ruleRef := by
      intro href
      rcases visitStack_cases rest hp with ⟨-, hnext⟩ | ⟨hne, -⟩
      · rw [hs.leaf] at hnext
        cases hnext
      · exact hne href
    unfold StackWords
    rw [stackSymbols_cons]
    cases htoken : isTokenElement (elementAt rules p) with
    | true =>
      -- No character is taken where a token is to come.
      rw [symbolsAt_token htoken, List.cons_append, words_terminal_iff]
      constructor
      · rintro ⟨⟨part, hpart, -⟩, -⟩
        cases hpart
      · rintro ⟨t, hchar, -⟩
        rw [(charStep_cons.1 hchar).1] at htoken
        cases htoken
    | false =>
      obtain ⟨cls, hholds, hsymbols⟩ := symbolsAt_char hreg.wellFormed hp href htoken
      have hvalid := hs.behind_char hreg c
      rw [hsymbols c, List.cons_append, words_terminal_iff, hholds, ← stackSymbols_pushPos]
      constructor
      · rintro ⟨hmatch, h⟩
        obtain ⟨t, hleads, hw⟩ := exists_leads_words hreg.wellFormed (leftWords_iff.2 h) hvalid rfl
        exact ⟨t, charStep_cons.2 ⟨htoken, hmatch, hleads⟩, hw⟩
      · rintro ⟨t, hchar, hw⟩
        obtain ⟨-, hmatch, hleads⟩ := charStep_cons.1 hchar
        exact ⟨hmatch, hleads.words hreg.wellFormed hvalid hw⟩

/-- The words of a stack are read in two parts, through a stack in between. -/
theorem walk_words {u v : List Nat} (hs : Ready rules s) :
    StackWords rules s (u ++ v) ↔ ∃ t, Walk rules u s t ∧ StackWords rules t v := by
  induction u generalizing s with
  | nil =>
    constructor
    · exact fun h => ⟨s, rfl, h⟩
    · rintro ⟨t, rfl, h⟩
      exact h
  | cons c u ih =>
    rw [List.cons_append, charStep_words hreg hs]
    constructor
    · rintro ⟨s', hstep, h⟩
      obtain ⟨t, hwalk, hv⟩ := (ih (hstep.ready hreg hs)).1 h
      exact ⟨t, ⟨s', hstep, hwalk⟩, hv⟩
    · rintro ⟨t, ⟨s', hstep, hwalk⟩, hv⟩
      exact ⟨s', hstep, (ih (hstep.ready hreg hs)).2 ⟨t, hwalk, hv⟩⟩

omit hreg in
/-- The empty stack alone has the empty word, among the stacks that come out of `advanceStack`. -/
theorem stackWords_nil_iff (hs : Ready rules s) (hwf : WellFormed rules) :
    StackWords rules s [] ↔ s = [] := by
  constructor
  · intro h
    cases s with
    | nil => rfl
    | cons p rest =>
      have hp := hs.valid p List.mem_cons_self
      rcases visitStack_cases rest hp with ⟨-, hnext⟩ | ⟨href, -⟩
      · rw [hs.leaf] at hnext
        cases hnext
      · unfold StackWords at h
        rw [stackSymbols_cons] at h
        cases htoken : isTokenElement (elementAt rules p) with
        | true =>
          rw [symbolsAt_token htoken] at h
          exact absurd h not_words_terminal_nil
        | false =>
          obtain ⟨cls, -, hsymbols⟩ := symbolsAt_char hwf hp href htoken
          rw [hsymbols 0] at h
          exact absurd h not_words_terminal_nil
  · rintro rfl
    exact .nil

/-! ### The run -/

/-- The initial stacks are those that the start rule leads to. -/
theorem initialStacks_settles (start : Nat) :
    ∃ initial, (∀ t, t ∈ initial ↔ ∃ idx ∈ alternates (ruleAt rules start),
        Leads rules (pushPos rules ⟨start, idx⟩ []) t) ∧
      Settles (fun n => initialStacks rules n start) initial := by
  obtain ⟨out, hout, hsettles⟩ := exists_settles_foldlM
    (f := fun n acc idx => advanceStack rules n (pushPos rules ⟨start, idx⟩ []) acc)
    (fun done out => ∀ t, t ∈ out ↔ ∃ idx ∈ done,
      Leads rules (pushPos rules ⟨start, idx⟩ []) t)
    (fun done idx rest hsplit acc hacc => by
      have hmem : idx ∈ alternates (ruleAt rules start) := by rw [hsplit]; simp
      obtain ⟨out, hout, hsettles⟩ := advanceStack_settles hreg
        (validStack_nil.push (startsElement_of_alternate hreg.wellFormed hmem)) acc
      refine ⟨out, fun t => ?_, hsettles⟩
      rw [hout, hacc]
      simp [or_and_right, exists_or])
    (l := alternates (ruleAt rules start)) (b := []) (by simp)
  exact ⟨out, hout, hsettles⟩

omit hreg in
theorem foldlM_accept (fuel : Nat) (w : List Nat) (current : Stacks) :
    (w.foldlM (accept fuel) { rules := rules, grammarStacks := current }).map
        LlamaGrammar.grammarStacks = w.foldlM (acceptChrAll rules fuel) current := by
  induction w generalizing current with
  | nil => rfl
  | cons c w ih =>
    rw [List.foldlM_cons, List.foldlM_cons]
    show ((accept fuel _ c).bind _).map _ = (acceptChrAll rules fuel current c).bind _
    unfold accept
    cases acceptChrAll rules fuel current c with
    | none => rfl
    | some next => exact ih next

/-- The stacks after a word: each accepts what is left of words that begin with it, and together
they accept all of that. -/
theorem stacksAfter_settles (start : Nat) (w : List Nat) :
    ∃ out, Settles (fun n => stacksAfter rules n start w) out ∧ (∀ t ∈ out, Ready rules t) ∧
      ∀ v, (∃ t ∈ out, StackWords rules t v) ↔ Derives rules start (w ++ v) := by
  obtain ⟨initial, hinitial, hstart⟩ := initialStacks_settles hreg start
  have hvalid : ∀ idx ∈ alternates (ruleAt rules start),
      ValidStack rules (pushPos rules ⟨start, idx⟩ []) :=
    fun idx hidx => validStack_nil.push (startsElement_of_alternate hreg.wellFormed hidx)
  have hready : ∀ s ∈ initial, Ready rules s := by
    intro s hs
    obtain ⟨idx, hidx, hleads⟩ := (hinitial s).1 hs
    exact hleads.ready hreg (hvalid idx hidx)
  obtain ⟨out, hout, hrun⟩ := acceptChars_settles hreg w hready
  have hall := hstart.bind (G := fun initial n => w.foldlM (acceptChrAll rules n) initial) hrun
  refine ⟨out, ?_, fun t ht => ?_, fun v => ?_⟩
  · simp only [stacksAfter, foldlM_accept]
    exact hall
  · obtain ⟨s, hs, hwalk⟩ := (hout t).1 ht
    exact hwalk.ready hreg (hready s hs)
  · constructor
    · rintro ⟨t, ht, hv⟩
      obtain ⟨s, hs, hwalk⟩ := (hout t).1 ht
      obtain ⟨idx, hidx, hleads⟩ := (hinitial s).1 hs
      have hword := hleads.words hreg.wellFormed (hvalid idx hidx)
        ((walk_words hreg (hready s hs)).2 ⟨t, hwalk, hv⟩)
      unfold StackWords at hword
      rw [stackSymbols_pushPos] at hword
      refine ⟨_, List.mem_map_of_mem hidx, ?_⟩
      simpa [stackSymbols] using hword
    · rintro ⟨α, hα, hword⟩
      obtain ⟨idx, hidx, rfl⟩ := List.mem_map.1 hα
      have hsymbols : stackSymbols rules (pushPos rules ⟨start, idx⟩ []) =
          symbolsAt rules ⟨start, idx⟩ := by
        rw [stackSymbols_pushPos]
        simp [stackSymbols]
      obtain ⟨s, hleads, hs⟩ := exists_leads_words hreg.wellFormed (leftWords_iff.2 hword)
        (hvalid idx hidx) hsymbols
      have hmem := (hinitial s).2 ⟨idx, hidx, hleads⟩
      obtain ⟨t, hwalk, hv⟩ := (walk_words hreg (hready s hmem)).1 hs
      exact ⟨t, (hout t).2 ⟨s, hmem, hwalk⟩, hv⟩

omit hreg in
/-- References in a string are to rules that exist. -/
theorem lt_of_mem_symbolsOf {es : List Element} {A : Nat}
    (hrefs : ∀ e ∈ es, e.type = .ruleRef → e.value < rules.length)
    (h : .nonterminal A ∈ symbolsOf es) : A < rules.length := by
  induction es with
  | nil => cases h
  | cons e es ih =>
    have hrest := ih fun e' he' => hrefs e' (List.mem_cons_of_mem e he')
    have hself := hrefs e List.mem_cons_self
    rw [symbolsOf] at h
    cases htype : e.type with
    | ruleRef =>
      simp only [htype, List.mem_cons, Symbol.nonterminal.injEq] at h
      rcases h with rfl | h
      · exact hself htype
      · exact hrest h
    | «end» | alt => simp [htype] at h
    | char | charAny | charNot | token | tokenNot | charAlt | charRngUpper =>
      simp only [htype, List.mem_cons, reduceCtorEq, false_or] at h
      exact hrest h

omit hreg in
/-- When all rules are productive, each stack has a word. -/
theorem exists_stackWords (hwf : WellFormed rules) {codePoint : Nat → Prop}
    (hprod : Productive rules codePoint) (s : Stack) :
    ∃ v, (∀ c ∈ v, codePoint c) ∧ StackWords rules s v := by
  refine exists_words (fun A hA => ?_) (fun t ht => ?_)
  · obtain ⟨p, -, hA⟩ := List.mem_flatMap.1 hA
    have hrefs : ∀ e ∈ (ruleAt rules p.rule).drop p.idx, e.type = .ruleRef →
        e.value < rules.length := by
      intro e he
      by_cases hr : p.rule < rules.length
      · exact hwf.refs _ (ruleAt_mem hr) e (List.mem_of_mem_drop he)
      · rw [ruleAt_of_le (Nat.le_of_not_lt hr), List.drop_nil] at he
        cases he
    obtain ⟨w, hw, α, hα, hword⟩ := hprod.derives A (lt_of_mem_symbolsOf hrefs hA)
    exact ⟨α, hα, w, hw, hword⟩
  · obtain ⟨p, -, ht⟩ := List.mem_flatMap.1 ht
    exact hprod.classes p t ht

/-- Without left recursion the stack machine recognises the language of each rule: with enough fuel
it returns, the empty stack is there exactly when the word is derived, a stack is left when the word
goes on to a derived one, and where all rules and classes are productive only then. -/
theorem stacksAfter_recognises (start : Nat) (w : List Nat) :
    ∃ out, Settles (fun n => stacksAfter rules n start w) out ∧
      ([] ∈ out ↔ Derives rules start w) ∧
      ((∃ v, Derives rules start (w ++ v)) → out ≠ []) ∧
      ∀ codePoint : Nat → Prop, Productive rules codePoint → out ≠ [] →
        ∃ v, (∀ c ∈ v, codePoint c) ∧ Derives rules start (w ++ v) := by
  obtain ⟨out, hsettles, hready, hwords⟩ := stacksAfter_settles hreg start w
  refine ⟨out, hsettles, ?_, ?_, ?_⟩
  · have hempty := hwords []
    rw [List.append_nil] at hempty
    rw [← hempty]
    constructor
    · exact fun h => ⟨[], h, .nil⟩
    · rintro ⟨t, ht, hword⟩
      rw [(stackWords_nil_iff (hready t ht) hreg.wellFormed).1 hword] at ht
      exact ht
  · rintro ⟨v, hv⟩
    obtain ⟨t, ht, -⟩ := (hwords v).2 hv
    exact List.ne_nil_of_mem ht
  · intro codePoint hprod hne
    obtain ⟨t, ht⟩ := List.exists_mem_of_ne_nil out hne
    obtain ⟨v, hv, hword⟩ := exists_stackWords hreg.wellFormed hprod t
    exact ⟨v, hv, (hwords v).1 ⟨t, ht, hword⟩⟩

omit hreg in
theorem plainRules_regular : Regular plainRules :=
  ⟨plainRules_wellFormed, not_leftRecursive_of_terminals plainRules_productions⟩

omit hreg in
/-- `root ::= "a" root | "b"` recognises "ab". -/
theorem plainRules_recognises :
    ∃ out, Settles (fun n => stacksAfter plainRules n 0 [97, 98]) out ∧ [] ∈ out := by
  obtain ⟨out, hsettles, hempty, -⟩ := stacksAfter_recognises plainRules_regular 0 [97, 98]
  have hb : Derives plainRules 0 [98] :=
    ⟨_, List.mem_cons_of_mem _ List.mem_cons_self, .terminal ⟨_, List.mem_cons_self, rfl⟩ .nil⟩
  obtain ⟨α, hα, hword⟩ := hb
  have hab : Derives plainRules 0 [97, 98] :=
    ⟨_, List.mem_cons_self, .terminal ⟨_, List.mem_cons_self, rfl⟩ (.nonterminal hα hword .nil)⟩
  exact ⟨out, hsettles, hempty.2 hab⟩

/-! ### Tokens -/

open Utf8

/-- Without left recursion every expansion comes to an end. -/
theorem Ready.totalOn (hs : Ready rules s) (cs : List Nat) : TotalOn rules cs s := by
  induction cs generalizing s with
  | nil => trivial
  | cons c cs ih =>
    obtain ⟨out, -, hsettles⟩ := acceptChr_settles hreg hs c []
    exact ⟨⟨out, hsettles⟩, fun t ht => ih (ht.ready hreg hs)⟩

/-- What feeding a text to a grammar says about the code points of the text: where it throws, no
sentence begins with them; otherwise the generation may end when they are a sentence, and where the
rules are productive they can be completed to one. -/
def Recognised (rules : Rules) (start : Nat) (cs : List Nat) : Option LlamaGrammar → Prop
  | none => ∀ v, ¬ Derives rules start (cs ++ v)
  | some grammar => (grammar.grammarStacks.any List.isEmpty = true ↔ Derives rules start cs) ∧
      ∀ codePoint : Nat → Prop, Productive rules codePoint →
        ∃ v, (∀ c ∈ v, codePoint c) ∧ Derives rules start (cs ++ v)

/-- A text that is fed in tokens, however it is cut: the grammar of the initial stacks takes it or
throws, and it recognises the text. -/
theorem acceptPieces_recognises (hchars : OnlyChars rules) (start : Nat)
    {pieces : List (Nat × List UInt8)} (hne : pieces ≠ [])
    (hlast : ∀ p ∈ pieces.getLast?, p.2 ≠ []) (hutf8 : IsUtf8 (pieceText pieces))
    (hzero : ∀ b ∈ pieceText pieces, b ≠ 0) :
    ∃ initial outcome, Settles (fun n => initialStacks rules n start) initial ∧
      Settles (fun n => acceptPieces n { rules := rules, grammarStacks := initial } pieces)
        outcome ∧
      Recognised rules start (decodeUtf8 (pieceText pieces) {}).1.dropLast outcome := by
  obtain ⟨initial, hsettles, hready, hwords⟩ := stacksAfter_settles hreg start []
  have hstart : (fun n => stacksAfter rules n start []) = fun n => initialStacks rules n start := by
    funext n
    unfold stacksAfter
    cases initialStacks rules n start <;> rfl
  rw [hstart] at hsettles
  obtain ⟨cs, st, hdecodes, hclosed⟩ : DecodesWhole {} (pieceText pieces) :=
    decodesWhole_of_isUtf8 hutf8 hzero (Int.le_refl 0)
  obtain ⟨hreturns, houtcome⟩ := @acceptPieces_spec { rules := rules, grammarStacks := initial }
    hchars pieces hne hlast cs st hdecodes hclosed
  obtain ⟨outcome, hout⟩ := hreturns.2 fun s hs => (hready s hs).totalOn hreg cs
  have hresult := houtcome outcome hout
  -- the stacks behind the text have together the words that complete it
  have hway : ∀ v, (∃ t, (∃ s, Takers { rules := rules, grammarStacks := initial } s ∧
      Walk rules cs s t) ∧ StackWords rules t v) ↔ Derives rules start (cs ++ v) := by
    intro v
    rw [← List.nil_append (cs ++ v), ← hwords]
    constructor
    · rintro ⟨t, ⟨s, ⟨hs, -⟩, hwalk⟩, hv⟩
      exact ⟨s, hs, (walk_words hreg (hready s hs)).2 ⟨t, hwalk, hv⟩⟩
    · rintro ⟨s, hs, hword⟩
      obtain ⟨t, hwalk, hv⟩ := (walk_words hreg (hready s hs)).1 hword
      refine ⟨t, ⟨s, ⟨hs, ?_⟩, hwalk⟩, hv⟩
      rintro rfl
      exact not_walk_nil (rest_ne_nil hne hlast hdecodes hclosed) hwalk
  refine ⟨initial, outcome, hsettles, hout, ?_⟩
  rw [decodeUtf8_of_decodes hdecodes, List.dropLast_concat]
  cases outcome with
  | none =>
    intro v hv
    obtain ⟨t, ⟨s, hs, hwalk⟩, -⟩ := (hway v).2 hv
    exact hresult s hs t hwalk
  | some grammar =>
    obtain ⟨-, -, hleft, hmem⟩ := hresult
    simp only [← hmem] at hway
    constructor
    · rw [← List.append_nil cs, ← hway, List.any_eq_true]
      refine exists_congr fun t => and_congr_right fun ht => ?_
      obtain ⟨s, hs, hwalk⟩ := (hmem t).1 ht
      rw [stackWords_nil_iff (hwalk.ready hreg (hready s hs.1)) hreg.wellFormed, List.isEmpty_iff]
    · intro codePoint hprod
      obtain ⟨t, ht⟩ := List.exists_mem_of_ne_nil _ hleft
      obtain ⟨v, hv, hword⟩ := exists_stackWords hreg.wellFormed hprod t
      exact ⟨v, hv, (hway v).1 ⟨t, ht, hword⟩⟩

omit hreg in
/-- `root ::= "a" root | "b"`, and "ab" in two tokens. -/
theorem plainRules_acceptPieces :
    ∃ initial outcome, Settles (fun n => initialStacks plainRules n 0) initial ∧
      Settles (fun n => acceptPieces n { rules := plainRules, grammarStacks := initial }
        [(1, [97]), (2, [98])]) outcome ∧ Recognised plainRules 0 [97, 98] outcome := by
  have hchars : OnlyChars plainRules := by
    rintro ⟨_ | rule, _ | _ | _ | _ | _ | idx⟩ <;> rfl
  have hchar : ∀ b : UInt8, leadLen b = 1 → IsChar [b] := fun b h => ⟨h, by simp⟩
  exact acceptPieces_recognises plainRules_regular hchars 0 (List.cons_ne_nil _ _) (by simp)
    (.append (hchar 97 rfl) (.append (hchar 98 rfl) .nil)) (by simp [pieceText])

end PxqLlama.Grammar
