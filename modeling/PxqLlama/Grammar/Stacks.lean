import PxqLlama.Lib.Explore

/-!
# `Grammar.Stacks`: the pushdown stacks of a grammar

The rules of a grammar are arrays of elements: the alternates of a rule one after another, `ALT`
between them and `END` behind the last. A place in a rule is a pointer in the source and a `Pos`
here. A stack holds the places where the parser goes on, its top first (the source's vector has
the top at its end).

`advanceStack` expands rule references on top of a stack until a character, a token or nothing is
there. `detectLeftRecursion` is to keep out the rules for which this does not end.
-/

namespace PxqLlama.Grammar

/-- `llama_gretype`. -/
inductive Gretype where
  | «end»
  | alt
  | ruleRef
  | char
  | charNot
  | charRngUpper
  | charAlt
  | charAny
  | token
  | tokenNot
deriving DecidableEq, Repr

/-- `llama_grammar_element`: the value is a code point, a rule or a token. -/
structure Element where
  type : Gretype
  value : Nat := 0
deriving DecidableEq, Repr

abbrev Rule := List Element

/-- `llama_grammar_rules`. -/
abbrev Rules := List Rule

/-- A pointer into the rules. -/
structure Pos where
  rule : Nat
  idx : Nat
deriving DecidableEq, Repr

/-- `pos + 1`. -/
def Pos.next (p : Pos) : Pos := { p with idx := p.idx + 1 }

/-- `llama_grammar_stack`. -/
abbrev Stack := List Pos

/-- `llama_grammar_stacks`. -/
abbrev Stacks := List Stack

/-- `rules[i]`. -/
def ruleAt (rules : Rules) (i : Nat) : Rule := rules.getD i []

/-- `*pos`. -/
def elementAt (rules : Rules) (p : Pos) : Element := (ruleAt rules p.rule).getD p.idx ⟨.end, 0⟩

/-- `llama_grammar_is_end_of_sequence`. -/
def isEndOfSequence (e : Element) : Bool :=
  match e.type with
  | .end | .alt => true
  | _ => false

/-! ### Matching -/

/-- One part of a character element: any character, or the ones from `low` to `high`. -/
inductive CharRange where
  | any
  | range (low high : Nat)
deriving DecidableEq, Repr

/-- The loop of `llama_grammar_match_char` and of `llama_grammar_match_partial_char`: the parts of
the character element at the start of the list, and how many elements they take. -/
def charGroup : List Element → List CharRange × Nat
  | [] => ([], 0)
  | [e] => ([if e.type = .charAny then .any else .range e.value e.value], 1)
  | e :: upper :: rest =>
    if upper.type = .charRngUpper then
      let more := if (rest.head?.map Element.type) = some .charAlt then charGroup rest else ([], 0)
      (.range e.value upper.value :: more.1, more.2 + 2)
    else
      let more := if upper.type = .charAlt then charGroup (upper :: rest) else ([], 0)
      ((if e.type = .charAny then .any else .range e.value e.value) :: more.1, more.2 + 1)

/-- The parts of the character element at a place. -/
def charRanges (rules : Rules) (p : Pos) : List CharRange × Nat :=
  charGroup ((ruleAt rules p.rule).drop p.idx)

/-- `is_positive_char`. -/
def isPositiveChar (e : Element) : Bool := e.type = .char || e.type = .charAny

def CharRange.holds (chr : Nat) : CharRange → Bool
  | .any => true
  | .range low high => low ≤ chr && chr ≤ high

/-- `llama_grammar_match_char`: whether the character matches, and the place behind the element. -/
def matchChar (rules : Rules) (p : Pos) (chr : Nat) : Bool × Pos :=
  let group := charRanges rules p
  let found := group.1.any (CharRange.holds chr)
  (found == isPositiveChar (elementAt rules p), { p with idx := p.idx + group.2 })

/-- The types of `LLAMA_GRETYPE_TOKEN` and `LLAMA_GRETYPE_TOKEN_NOT`. -/
def isTokenElement (e : Element) : Bool := e.type = .token || e.type = .tokenNot

/-- `llama_grammar_match_token`. -/
def matchToken (rules : Rules) (p : Pos) (token : Nat) : Bool :=
  match (elementAt rules p).type with
  | .token => (elementAt rules p).value = token
  | .tokenNot => (elementAt rules p).value ≠ token
  | _ => false

/-! ### `llama_grammar_advance_stack` -/

/-- Where the alternates of a rule start behind its first one. -/
def laterAlternates : Rule → (idx : Nat) → List Nat
  | [], _ => []
  | e :: es, idx =>
    match e.type with
    | .end => []
    | .alt => (idx + 1) :: laterAlternates es (idx + 1)
    | _ => laterAlternates es (idx + 1)

/-- Where the alternates of a rule start, in the order in which a loop over `subpos` meets them. -/
def alternates (rule : Rule) : List Nat := 0 :: laterAlternates rule 0

/-- A place goes on the stack where something is left at it. -/
def pushPos (rules : Rules) (p : Pos) (stack : Stack) : Stack :=
  if isEndOfSequence (elementAt rules p) then stack else p :: stack

/-- One round of `llama_grammar_advance_stack`. -/
def visitStack (rules : Rules) : Stack → Visit Stack
  | [] => .leaf
  | pos :: stack =>
    let e := elementAt rules pos
    match e.type with
    | .ruleRef =>
      .next ((alternates (ruleAt rules e.value)).map fun idx =>
        pushPos rules ⟨e.value, idx⟩ (pushPos rules pos.next stack))
    | .char | .charNot | .charAny | .token | .tokenNot => .leaf
    -- the end of an alternate, or the middle of a character element
    | .end | .alt | .charRngUpper | .charAlt => .abort

/-- `llama_grammar_advance_stack`. -/
def advanceStack (rules : Rules) (fuel : Nat) (stack : Stack) (newStacks : Stacks) :
    Option Stacks :=
  explore (visitStack rules) fuel [stack] [] newStacks

/-! ### `llama_grammar_detect_left_recursion` -/

/-- The three vectors of flags. -/
structure DetectState where
  visited : Nat → Bool := fun _ => false
  inProgress : Nat → Bool := fun _ => false
  mayBeEmpty : Nat → Bool := fun _ => false

/-- The first loop: whether an alternate of the rule is empty. -/
def hasEmptyAlternate : Rule → (atRuleStart : Bool) → Bool
  | [], _ => false
  | e :: es, atRuleStart =>
    if isEndOfSequence e then atRuleStart || hasEmptyAlternate es true
    else hasEmptyAlternate es false

/-- The second loop, over the elements of a rule; `detect` is the call for a reference. -/
def detectElements (detect : Nat → DetectState → Option (Bool × DetectState)) :
    List Element → (recurse : Bool) → DetectState → Option (Bool × DetectState)
  | [], _, st => some (false, st)
  | e :: es, recurse, st =>
    if e.type = .ruleRef ∧ recurse then
      match detect e.value st with
      | none => none
      | some (true, st) => some (true, st)
      | some (false, st) => detectElements detect es (st.mayBeEmpty e.value) st
    else detectElements detect es (isEndOfSequence e) st

/-- `llama_grammar_detect_left_recursion`, calling itself at most to the depth `fuel`. -/
def detectLeftRecursion (rules : Rules) : (fuel : Nat) → (ruleIndex : Nat) → DetectState →
    Option (Bool × DetectState)
  | 0, _, _ => none
  | fuel + 1, ruleIndex, st =>
    if st.inProgress ruleIndex then some (true, st)
    else
      let rule := ruleAt rules ruleIndex
      let st := { st with inProgress := Function.update st.inProgress ruleIndex true }
      let st := if hasEmptyAlternate rule true then
          { st with mayBeEmpty := Function.update st.mayBeEmpty ruleIndex true }
        else st
      match detectElements (detectLeftRecursion rules fuel) rule true st with
      | none => none
      | some (true, st) => some (true, st)
      | some (false, st) => some (false, { st with
          inProgress := Function.update st.inProgress ruleIndex false
          visited := Function.update st.visited ruleIndex true })

/-! ### `llama_grammar_init_impl` -/

/-- The check for left recursion: every rule that was not visited. -/
def checkRules (rules : Rules) (fuel : Nat) : List Nat → DetectState → Option Bool
  | [], _ => some false
  | i :: is, st =>
    if st.visited i then checkRules rules fuel is st
    else
      match detectLeftRecursion rules fuel i st with
      | none => none
      | some (true, _) => some true
      | some (false, st) => checkRules rules fuel is st

/-- Whether `llama_grammar_init_impl` refuses the rules as left recursive. -/
def isLeftRecursive (rules : Rules) (fuel : Nat) : Option Bool :=
  checkRules rules fuel (List.range rules.length) {}

/-- The stacks that `llama_grammar_init_impl` starts with: each alternate of the start rule is
advanced. -/
def initialStacks (rules : Rules) (fuel start : Nat) : Option Stacks :=
  (alternates (ruleAt rules start)).foldlM
    (fun acc idx => advanceStack rules fuel (pushPos rules ⟨start, idx⟩ []) acc) []

/-! ### Rules -/

/-- What may stand behind what: an upper end of a range and a further part of a character element
belong to the element before them. -/
def mayFollow (before after : Element) : Prop :=
  (after.type = .charRngUpper →
    before.type = .char ∨ before.type = .charNot ∨ before.type = .charAlt) ∧
  (after.type = .charAlt → before.type = .char ∨ before.type = .charNot ∨
    before.type = .charAlt ∨ before.type = .charRngUpper)

instance : DecidableRel mayFollow := fun _ _ => inferInstanceAs (Decidable (_ ∧ _))

/-- What the parser makes: rules that end where they should, with references to rules that exist
and character elements that are whole. -/
structure WellFormed (rules : Rules) : Prop where
  ends : ∀ rule ∈ rules, ∃ body, rule = body ++ [⟨.end, 0⟩] ∧ ∀ e ∈ body, e.type ≠ .end
  refs : ∀ rule ∈ rules, ∀ e ∈ rule, e.type = .ruleRef → e.value < rules.length
  placed : ∀ rule ∈ rules, List.IsChain mayFollow (⟨.alt, 0⟩ :: rule)

/-! ### Stacks in a run -/

/-- The stacks that are passed to `llama_grammar_advance_stack` while characters and tokens are
accepted: the alternates of the start rule, and what is behind an element that was matched on top
of a stack that came out. -/
inductive Passed (rules : Rules) (start : Nat) : Stack → Prop
  | start {idx : Nat} (h : idx ∈ alternates (ruleAt rules start)) :
      Passed rules start (pushPos rules ⟨start, idx⟩ [])
  | chr {stack rest : Stack} {fuel : Nat} {out : Stacks} {p : Pos} {c : Nat}
      (h : Passed rules start stack) (hadvance : advanceStack rules fuel stack [] = some out)
      (hout : p :: rest ∈ out) (hchar : ¬ isTokenElement (elementAt rules p))
      (hmatch : (matchChar rules p c).1) :
      Passed rules start (pushPos rules (matchChar rules p c).2 rest)
  | token {stack rest : Stack} {fuel : Nat} {out : Stacks} {p : Pos} {id : Nat}
      (h : Passed rules start stack) (hadvance : advanceStack rules fuel stack [] = some out)
      (hout : p :: rest ∈ out) (htoken : isTokenElement (elementAt rules p))
      (hmatch : matchToken rules p id) : Passed rules start (pushPos rules p.next rest)

end PxqLlama.Grammar
