import PxqLlama.Grammar.Mask
import PxqLlama.Lib.Grammars

/-!
# `Grammar.Language`: the words that a rule derives

What the rule arrays mean, apart from any parser: a rule is its alternates, an alternate is a string
of references and character classes, and a class is a set of code points that is spread over several
elements. `stacksAfter` is what the stack machine makes of a word.
-/

namespace PxqLlama.Grammar

/-- The elements that belong to the character element before them. -/
def isFurtherPart (e : Element) : Bool := e.type = .charAlt || e.type = .charRngUpper

/-- A class of code points: the parts, and whether the class is what they hold for or what they do
not. -/
structure CharClass where
  positive : Bool
  parts : List CharRange
deriving DecidableEq, Repr

def CharClass.Holds (t : CharClass) (c : Nat) : Prop :=
  if t.positive then ∃ part ∈ t.parts, part.holds c = true
  else ∀ part ∈ t.parts, part.holds c = false

/-- The parts of the class at the start of a list: each element but the upper ends is one, a range
where an upper end is behind it. -/
def classParts : List Element → List CharRange
  | [] => []
  | e :: es =>
    let group := e :: es.takeWhile isFurtherPart
    (group.zip (group.tail ++ [⟨.end, 0⟩])).filterMap fun p =>
      if p.1.type = .charRngUpper then none
      else if p.2.type = .charRngUpper then some (.range p.1.value p.2.value)
      else if p.1.type = .charAny then some .any
      else some (.range p.1.value p.1.value)

/-- The string of an alternate. A token element is a class of no characters. -/
def symbolsOf : List Element → List (Symbol CharClass Nat)
  | [] => []
  | e :: es =>
    match e.type with
    | .end | .alt => []
    | .ruleRef => .nonterminal e.value :: symbolsOf es
    | .char | .charAny => .terminal ⟨true, classParts (e :: es)⟩ :: symbolsOf es
    | .charNot => .terminal ⟨false, classParts (e :: es)⟩ :: symbolsOf es
    | .token | .tokenNot => .terminal ⟨true, []⟩ :: symbolsOf es
    -- a further part of the class before
    | .charAlt | .charRngUpper => symbolsOf es

/-- The string of what is left of an alternate at a place. -/
def symbolsAt (rules : Rules) (p : Pos) : List (Symbol CharClass Nat) :=
  symbolsOf ((ruleAt rules p.rule).drop p.idx)

/-- The alternates of a rule as strings. -/
def alternateStrings (rules : Rules) (r : Nat) : List (List (Symbol CharClass Nat)) :=
  (alternates (ruleAt rules r)).map fun idx => symbolsAt rules ⟨r, idx⟩

/-- The rule derives the word. -/
def Derives (rules : Rules) (r : Nat) (w : List Nat) : Prop :=
  ∃ α ∈ alternateStrings rules r, Words (alternateStrings rules) CharClass.Holds α w

/-- Every rule derives a word, and every class holds for a code point. -/
structure Productive (rules : Rules) (codePoint : Nat → Prop) : Prop where
  derives : ∀ r < rules.length, ∃ w, (∀ c ∈ w, codePoint c) ∧ Derives rules r w
  classes : ∀ p t, .terminal t ∈ symbolsAt rules p → ∃ c, codePoint c ∧ t.Holds c

/-- The stacks after the initial ones have accepted the word. -/
def stacksAfter (rules : Rules) (fuel start : Nat) (w : List Nat) : Option Stacks :=
  (initialStacks rules fuel start).bind fun initial =>
    (w.foldlM (accept fuel) { rules := rules, grammarStacks := initial }).map
      LlamaGrammar.grammarStacks

end PxqLlama.Grammar
