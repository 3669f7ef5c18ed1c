import PxqLlama.Common.RegexPartial
import PxqLlama.Lib.Keeps

/-!
# `Common.SchemaPattern`: the `pattern` of a string schema

`_visit_pattern` writes the regular expression of a schema as a rule of a grammar. Its `transform`
reads one group, and all its calls share the index. Here the index is what is left of the text, and
the loop of `transform` is a recursion with fuel, for it does not always move on.

A text is the list of its bytes. Of `_rules` and `sub_rule_ids`, the first entry of a key counts.
-/

namespace PxqLlama.Common.SchemaPattern

abbrev Text := List Char

def NON_LITERAL_SET : List Char := ['|', '.', '(', ')', '[', ']', '{', '}', '*', '+', '?']

def ESCAPED_IN_REGEXPS_BUT_NOT_IN_LITERALS : List Char :=
  ['^', '$', '.', '[', ']', '(', ')', '|', '{', '}', '*', '+', '?']

/-- What keeps a call from returning: `front()` of an empty text, `back()` of an empty list, a
`std::out_of_range` that nothing catches, or a loop that goes on. -/
inductive Fault where
  | frontOfEmpty
  | backOfEmpty
  | outOfRange
  | noFuel

/-- The fields that a conversion reads and writes, and `sub_rule_ids`. -/
structure Converter where
  dotall : Bool := false
  rules : List (Text × Text) := []
  subRuleIds : List (Text × Text) := []
  errors : List String := []
  warnings : List String := []

abbrev ConvertM := Throwing Fault Converter

def reportIf (holds : Bool) (message : String) : ConvertM Unit :=
  modify fun c => if holds then { c with errors := c.errors ++ [message] } else c

def warn (message : String) : ConvertM Unit :=
  modify fun c => { c with warnings := c.warnings ++ [message] }

/-! ### Rules -/

def isRuleChar (c : Char) : Bool := c.isAlphanum || c = '-'

/-- Each run of characters that a name must not have becomes one `-`. -/
def escName : Text → Text
  | [] => []
  | c :: name =>
    if isRuleChar c then c :: escName name
    else if name.head?.any (!isRuleChar ·) then escName name
    else '-' :: escName name

/-- Whether the rule can be written under the key. -/
def Converter.isFree (c : Converter) (rule key : Text) : Bool := (c.rules.lookup key).all (· = rule)

/-- The names that `_add_rule` tries. -/
def ruleKeys (esc : Text) (n : Nat) : List Text :=
  esc :: (List.range n).map fun i => esc ++ Nat.toDigits 10 i

/-- `_add_rule`. Its search ends behind the last of the rules (`addRule_run`). -/
def addRule (name rule : Text) : ConvertM Text := do
  let c ← get
  match (ruleKeys (escName name) (c.rules.length + 1)).find? (c.isFree rule) with
  | none => throw .noFuel
  | some key =>
    set { c with rules := (key, rule) :: c.rules }
    pure key

def getDot : ConvertM Text := do
  let c ← get
  addRule "dot".toList (if c.dotall then "[\\U00000000-\\U0010FFFF]" else "[^\\x0A\\x0D]").toList

/-! ### Items -/

/-- `literal_or_rule`: the text, and whether it is a literal. -/
abbrev LiteralOrRule := Text × Bool

def toRule (ls : LiteralOrRule) : Text := if ls.2 then '"' :: (ls.1 ++ ['"']) else ls.1

def flushLiteral (literal : Text) : List Text :=
  if literal = [] then [] else [toRule (literal, true)]

/-- The loop of `join_seq`, with the literal that is being merged. -/
def joinLoop (literal : Text) : List LiteralOrRule → List Text
  | [] => flushLiteral literal
  | (s, true) :: seq => joinLoop (literal ++ s) seq
  | (s, false) :: seq => flushLiteral literal ++ s :: joinLoop [] seq

def joinSeq (seq : List LiteralOrRule) : LiteralOrRule :=
  (List.intercalate [' '] (joinLoop [] seq), false)

/-- The name of the rule for a repeated item. -/
def subRule (name sub : Text) : ConvertM Text := do
  let c ← get
  match c.subRuleIds.lookup sub with
  | some id => pure id
  | none =>
    let id ← addRule (name ++ '-' :: Nat.toDigits 10 (c.subRuleIds.length + 1)) sub
    modify fun c : Converter => { c with subRuleIds := (sub, id) :: c.subRuleIds }
    pure id

/-- What is repeated: a literal, or the name of a rule. -/
def repeatedItem (name : Text) (last : LiteralOrRule) : ConvertM Text :=
  if last.2 then pure (toRule last) else subRule name last.1

def toText (n : Int) : Text := (toString n).toList

/-- `build_repetition` without a separator. -/
def buildRepetition (itemRule : Text) (minItems maxItems : Int) : Text :=
  if maxItems = 0 then []
  else if minItems = 0 ∧ maxItems = 1 then itemRule ++ ['?']
  else if minItems = 1 ∧ maxItems = INT_MAX then itemRule ++ ['+']
  else if minItems = 0 ∧ maxItems = INT_MAX then itemRule ++ ['*']
  else
    itemRule ++ '{' :: (toText minItems ++
      ',' :: ((if maxItems = INT_MAX then [] else toText maxItems) ++ ['}']))

/-! ### Parts of the loop -/

/-- The start of a lookaround, behind its bracket. -/
def isLookaround (left : Text) : Bool := left.head? = some '?' && left.tail.head? ≠ some ':'

/-- What is behind a lookaround, with the number of brackets that are open. -/
def skipGroup : Nat → Text → Text
  | 0, left => left
  | _ + 1, [] => []
  | _ + 1, [_] => []
  | depth + 1, c :: d :: left =>
    if c = '\\' then skipGroup (depth + 1) left
    else skipGroup (if c = '(' then depth + 2 else if c = ')' then depth else depth + 1) (d :: left)

/-- The test behind a `)`. -/
def isUnbalanced (sub : Text) (start : Nat) : Bool :=
  0 < start && sub[start - 1]? ≠ some '(' &&
    (start < 2 || sub[start - 2]? ≠ some '?' || sub[start - 1]? ≠ some ':')

/-- The text of square brackets, and what is behind them if they are closed. -/
def squareBrackets : Text → Text × Option Text
  | [] => ([], none)
  | [c] => if c = ']' then ([], some []) else ([c], none)
  | c :: d :: left =>
    if c = ']' then ([], some (d :: left))
    else if c = '\\' then (squareBrackets left).map (c :: d :: ·) id
    else (squareBrackets (d :: left)).map (c :: ·) id

def curlyBrackets (left : Text) : Text := left.takeWhile (· ≠ '}')

def behindCurly (left : Text) : Text := (left.dropWhile (· ≠ '}')).tail

/-- `min_times` and `max_times`. -/
def times : List Text → Except StoiError (Int × Int)
  | [n] => do
    let times ← stoi n
    pure (times, times)
  | [m, n] => do
    let minTimes ← if m = [] then pure 0 else stoi m
    let maxTimes ← if n = [] then pure INT_MAX else stoi n
    pure (minTimes, maxTimes)
  | _ => pure (0, INT_MAX)

/-- The loop of the last branch: the literal, and what is left behind it. -/
def literalRun (literal : Text) : Text → Text × Text
  | [] => (literal, [])
  | [c] =>
    if c = '"' then (literal ++ ['\\', '"'], [])
    else if c ∈ NON_LITERAL_SET then (literal, [c])
    else (literal ++ [c], [])
  | c :: next :: left =>
    if c = '\\' then
      literalRun (literal ++
        if next ∈ ESCAPED_IN_REGEXPS_BUT_NOT_IN_LITERALS then [next] else [c, next]) left
    else if c = '"' then literalRun (literal ++ ['\\', '"']) (next :: left)
    else if c ∉ NON_LITERAL_SET ∧ (literal = [] ∨ next = '.' ∨ next ∉ NON_LITERAL_SET) then
      literalRun (literal ++ [c]) (next :: left)
    else (literal, c :: next :: left)

/-! ### The conversion -/

/-- `transform` from a state of its loop on: what it returns, and what is left. -/
def transform : (fuel : Nat) → (name sub : Text) → (start : Nat) → (seq : List LiteralOrRule) →
    Text → ConvertM (LiteralOrRule × Text)
  | 0, _, _, _, _, _ => throw .noFuel
  | _ + 1, _, _, _, seq, [] => pure (joinSeq seq, [])
  | fuel + 1, name, sub, start, seq, c :: left =>
    if c = '.' then do
      let dot ← getDot
      transform fuel name sub start (seq ++ [(dot, false)]) left
    else if c = '(' then
      if isLookaround left then do
        warn "Unsupported pattern syntax"
        transform fuel name sub start seq (skipGroup 1 left)
      else do
        let group ← transform fuel name sub (sub.length - (openGroup left).length) []
          (openGroup left)
        transform fuel name sub start (seq ++ [('(' :: (toRule group.1 ++ [')']), false)]) group.2
    else if c = ')' then do
      reportIf (isUnbalanced sub start) "Unbalanced parentheses"
      pure (joinSeq seq, left)
    else if c = '[' then do
      let brackets := squareBrackets left
      reportIf brackets.2.isNone "Unbalanced square brackets"
      transform fuel name sub start (seq ++ [('[' :: (brackets.1 ++ [']']), false)])
        (brackets.2.getD [])
    else if c = '|' then transform fuel name sub start (seq ++ [(['|'], false)]) left
    else if c = '*' ∨ c = '+' ∨ c = '?' then
      match seq.getLast? with
      | none => throw .backOfEmpty
      | some last =>
        transform fuel name sub start (seq.dropLast ++ [(toRule last ++ [c], false)]) left
    else if c = '{' then do
      let nums := (curlyBrackets left).splitOn ','
      reportIf ('}' ∉ left) "Unbalanced curly brackets"
      reportIf (nums.length ≠ 1 && nums.length ≠ 2) "Wrong number of values in curly brackets"
      match times nums with
      | .error .invalidArgument =>
        reportIf true "Invalid number in curly brackets"
        pure (([], false), behindCurly left)
      | .error .outOfRange => throw .outOfRange
      | .ok range =>
        match seq.getLast? with
        | none => throw .backOfEmpty
        | some last =>
          let item ← repeatedItem name last
          transform fuel name sub start
            (seq.dropLast ++ [(buildRepetition item range.1 range.2, false)]) (behindCurly left)
    else
      let literal := literalRun [] (c :: left)
      transform fuel name sub start (if literal.1 = [] then seq else seq ++ [(literal.1, true)])
        literal.2

def Enclosed (pattern : Text) : Prop := pattern.head? = some '^' ∧ pattern.getLast? = some '$'

instance (pattern : Text) : Decidable (Enclosed pattern) := inferInstanceAs (Decidable (_ ∧ _))

def subPattern (pattern : Text) : Text := (pattern.drop 1).take (pattern.length - 2)

/-- The rule of a string in quotes. -/
def quotedRule (rule : Text) : Text := "\"\\\"\" (".toList ++ (rule ++ ") \"\\\"\" space".toList)

/-- `_visit_pattern`. -/
def visitPattern (fuel : Nat) (pattern name : Text) : ConvertM Text :=
  if pattern = [] then throw .frontOfEmpty
  else if Enclosed pattern then do
    modify fun c => { c with subRuleIds := [] }
    let rule ← transform fuel name (subPattern pattern) 0 [] (subPattern pattern)
    addRule name (quotedRule (toRule rule.1))
  else do
    reportIf true "Pattern must start with '^' and end with '$'"
    pure []

end PxqLlama.Common.SchemaPattern
