import Mathlib.Algebra.Group.Nat.Defs
import PxqLlama.Grammar.Stacks
import PxqLlama.Lib.Keeps

/-!
# `Grammar.Parser`: `llama_grammar_parser`

The text of a grammar becomes rules. A group in parentheses and a repetition get rules of their own:
`S{m,n}` becomes `m` copies of `S` and a reference to the first of `n - m` rules, each of which is
`S` and the next, or nothing. The numbers of a repetition have 64 bits, those of the rules 32.

`expanded` is no field of the source. It lists the repetitions that passed the checks of
`handle_repetitions`, with the numbers that it was called with.

A pointer into the text is the rest of the text, and a zero byte ends it. Allocations succeed, and
a store behind the end of the rules is left out: the number of a rule would have to be `2 ^ 32 - 1`.
-/

namespace PxqLlama.Grammar.Parser

abbrev Text := List UInt8

/-- `*pos`. -/
def peek (pos : Text) : UInt8 := pos.headD 0

def MAX_REPETITION_THRESHOLD : Nat := 2000

def UINT64_MAX : Nat := 2 ^ 64 - 1

/-- How a parse stops: with a `std::exception`, in `GGML_ASSERT`, or without fuel. -/
inductive Stop where
  | thrown (what : String)
  | assertion
  | noFuel

/-- A repetition: what the three numbers are when `handle_repetitions` is called. -/
structure Call where
  nPrevRules : Nat
  minTimes : Nat
  maxTimes : Nat
deriving DecidableEq

/-- `symbol_ids` and `rules`. -/
structure Tables where
  symbolIds : List (Text × Nat) := []
  rules : Rules := []

structure GrammarParser where
  tables : Tables := {}
  expanded : List Call := []

abbrev ParseM := Throwing Stop GrammarParser

def expect (holds : Bool) (what : String) : ParseM Unit :=
  if holds then pure () else throw (.thrown what)

/-! ### Characters -/

def isDigitChar (c : UInt8) : Bool := '0'.toUInt8 ≤ c && c ≤ '9'.toUInt8

def isWordChar (c : UInt8) : Bool :=
  ('a'.toUInt8 ≤ c && c ≤ 'z'.toUInt8) || ('A'.toUInt8 ≤ c && c ≤ 'Z'.toUInt8) ||
    c = '-'.toUInt8 || isDigitChar c

/-- The continuation bytes of `decode_utf8`. -/
def continuation : Nat → Nat → Text → Nat × Text
  | len + 1, value, c :: pos =>
    if c = 0 then (value, c :: pos) else continuation len (value * 64 + c.toNat % 64) pos
  | _, value, pos => (value, pos)

/-- `decode_utf8` of one character. -/
def decodeUtf8 (src : Text) : Nat × Text :=
  let firstByte := (peek src).toNat
  let len := if firstByte < 192 then 1 else if firstByte < 224 then 2
    else if firstByte < 240 then 3 else 4
  continuation (len - 1) (firstByte % 2 ^ (8 - len)) src.tail

def hexDigit (c : UInt8) : Option Nat :=
  if 'a'.toUInt8 ≤ c && c ≤ 'f'.toUInt8 then some (c.toNat - 'a'.toNat + 10)
  else if 'A'.toUInt8 ≤ c && c ≤ 'F'.toUInt8 then some (c.toNat - 'A'.toNat + 10)
  else if isDigitChar c then some (c.toNat - '0'.toNat)
  else none

/-- The loop of `parse_hex`. -/
def hexLoop : Nat → Nat → Text → Option (Nat × Text)
  | 0, value, pos => some (value, pos)
  | size + 1, value, pos =>
    (hexDigit (peek pos)).bind fun digit => hexLoop size (value * 16 + digit) pos.tail

def parseHex (src : Text) (size : Nat) : ParseM (Nat × Text) :=
  match hexLoop size 0 src with
  | some parsed => pure parsed
  | none => throw (.thrown "expecting hex chars at ")

/-- `parse_space`; `comment` says that its inner loop is running. -/
def spaceLoop (newlineOk : Bool) : Bool → Text → Text
  | _, [] => []
  | comment, c :: pos =>
    if comment && c ≠ 0 && c ≠ '\r'.toUInt8 && c ≠ '\n'.toUInt8 then spaceLoop newlineOk true pos
    else if c = '#'.toUInt8 then spaceLoop newlineOk true pos
    else if c = ' '.toUInt8 || c = '\t'.toUInt8 ||
        (newlineOk && (c = '\r'.toUInt8 || c = '\n'.toUInt8)) then spaceLoop newlineOk false pos
    else c :: pos

def parseSpace (src : Text) (newlineOk : Bool) : Text := spaceLoop newlineOk false src

/-- `parse_name`: the name, and what is behind it. -/
def parseName (src : Text) : ParseM (Text × Text) := do
  expect (isWordChar (peek src)) "expecting name at "
  pure (src.takeWhile isWordChar, src.dropWhile isWordChar)

def parseInt (src : Text) : ParseM (Text × Text) := do
  expect (isDigitChar (peek src)) "expecting integer at "
  pure (src.takeWhile isDigitChar, src.dropWhile isDigitChar)

/-- `std::stoull` and `std::stoul` of digits. -/
def stoull (digits : Text) : ParseM Nat := do
  let value := digits.foldl (fun value c => value * 10 + (c.toNat - '0'.toNat)) 0
  expect (value ≤ UINT64_MAX) "stoull"
  pure value

def parseChar (src : Text) : ParseM (Nat × Text) :=
  let escaped := peek src.tail
  let pos := src.drop 2
  if peek src = '\\'.toUInt8 then
    if escaped = 'x'.toUInt8 then parseHex pos 2
    else if escaped = 'u'.toUInt8 then parseHex pos 4
    else if escaped = 'U'.toUInt8 then parseHex pos 8
    else if escaped = 't'.toUInt8 then pure ('\t'.toNat, pos)
    else if escaped = 'r'.toUInt8 then pure ('\r'.toNat, pos)
    else if escaped = 'n'.toUInt8 then pure ('\n'.toNat, pos)
    else if escaped = '\\'.toUInt8 || escaped = '"'.toUInt8 || escaped = '['.toUInt8 ||
        escaped = ']'.toUInt8 then pure (escaped.toNat, pos)
    else throw (.thrown "unknown escape at ")
  else if peek src ≠ 0 then pure (decodeUtf8 src)
  else throw (.thrown "unexpected end of input")

/-- `parse_token`. The vocabulary gives the tokens of a text. -/
def parseToken (vocab : Option (Text → List Nat)) (src : Text) : ParseM (Nat × Text) := do
  expect (peek src = '<'.toUInt8) "expecting '<' at "
  if peek src.tail = '['.toUInt8 then
    let (digits, pos) ← parseInt (src.drop 2)
    let tokenId ← stoull digits
    expect (peek pos = ']'.toUInt8) "expecting ']' at "
    expect (peek pos.tail = '>'.toUInt8) "expecting '>' at "
    pure (tokenId % 2 ^ 32, pos.drop 2)
  else
    match vocab with
    | none => throw (.thrown "no vocab to parse token at ")
    | some tokenize =>
      let inside := src.tail.takeWhile fun c => c ≠ 0 && c ≠ '>'.toUInt8
      let pos := src.drop (1 + inside.length)
      expect (peek pos = '>'.toUInt8) "expecting '>' at "
      match tokenize (src.take (2 + inside.length)) with
      | [token] => pure (token, pos.tail)
      | _ => throw (.thrown "invalid token")

/-! ### Symbols and rules -/

namespace Tables

def getSymbolId (t : Tables) (name : Text) : Nat × Tables :=
  match t.symbolIds.lookup name with
  | some id => (id, t)
  | none =>
    let id := t.symbolIds.length % 2 ^ 32
    (id, { t with symbolIds := t.symbolIds ++ [(name, id)] })

/-- `symbol_ids[base_name + '_' + std::to_string(next_id)] = next_id`. -/
def generateSymbolId (t : Tables) (baseName : Text) : Nat × Tables :=
  let id := t.symbolIds.length % 2 ^ 32
  let key := baseName ++ '_'.toUInt8 :: (toString id).toList.map Char.toUInt8
  (id, { t with symbolIds :=
    if (t.symbolIds.lookup key).isSome then
      t.symbolIds.map fun s => if s.1 = key then (key, id) else s
    else t.symbolIds ++ [(key, id)] })

def addRule (t : Tables) (id : Nat) (rule : Rule) : Tables :=
  let size := (id + 1) % 2 ^ 32
  let rules := if t.rules.length ≤ id then
    t.rules.take size ++ List.replicate (size - t.rules.length) [] else t.rules
  { t with rules := rules.set id rule }

/-- The check of `parse`: every rule is defined, and so is every rule that one refers to by the name
of a symbol. -/
def valid (t : Tables) : Bool :=
  t.rules.all fun rule => rule ≠ [] && rule.all fun elem =>
    elem.type ≠ .ruleRef || t.rules.getD elem.value [] ≠ [] ||
      t.symbolIds.all fun s => s.2 ≠ elem.value

end Tables

/-! ### Repetitions -/

namespace Call

variable (c : Call)

def noMax : Bool := c.maxTimes = UINT64_MAX

def totalRules : Nat :=
  if !c.noMax && 0 < c.maxTimes then c.maxTimes else if 0 < c.minTimes then c.minTimes else 1

/-- `n_prev_rules * total_rules`. -/
def product : Nat := c.nPrevRules * c.totalRules % 2 ^ 64

/-- The rounds of the loop that copies the item: `i` from 1 below `min_times`. -/
def copies : Nat := c.minTimes - 1

/-- `n_opt`, the rounds of the loop that makes rules: `max_times - min_times`. -/
def nOpt : Nat := if c.noMax then 1 else (c.maxTimes + 2 ^ 64 - c.minTimes) % 2 ^ 64

end Call

/-- The rounds of the loop that makes rules, and `last_rec_rule_id`. -/
def recRules (ruleName : Text) (prevRule : Rule) (noMax : Bool) (t : Tables) : Nat → Tables × Nat
  | 0 => (t, 0)
  | i + 1 =>
    let (t, lastRecRuleId) := recRules ruleName prevRule noMax t i
    let (recRuleId, t) := t.generateSymbolId ruleName
    let ref := if 0 < i || noMax then [⟨.ruleRef, if noMax then recRuleId else lastRecRuleId⟩] else []
    (t.addRule recRuleId (prevRule ++ ref ++ [⟨.alt, 0⟩, ⟨.end, 0⟩]), recRuleId)

/-- The variables of `parse_sequence`. -/
structure Sequence where
  pos : Text
  rule : Rule
  lastSymStart : Nat
  nPrevRules : Nat := 1

/-- An item is pushed. -/
def Sequence.push (seq : Sequence) (item : Rule) (pos : Text) (nPrevRules : Nat := 1) : Sequence :=
  { pos, rule := seq.rule ++ item, lastSymStart := seq.rule.length, nPrevRules }

def handleRepetitions (ruleName : Text) (seq : Sequence) (minTimes maxTimes : Nat) :
    ParseM Sequence := do
  let c : Call := { nPrevRules := seq.nPrevRules, minTimes, maxTimes }
  let prevRule := seq.rule.drop seq.lastSymStart
  expect (seq.lastSymStart ≠ seq.rule.length) "expecting preceding item to */+/?/\x7b at "
  expect (c.product < MAX_REPETITION_THRESHOLD) "number of rules that are going to be repeated"
  let p ← get
  let rule := if minTimes = 0 then seq.rule.take seq.lastSymStart
    else seq.rule ++ (List.replicate c.copies prevRule).flatten
  let made := recRules ruleName prevRule c.noMax p.tables c.nOpt
  set { tables := made.1, expanded := c :: p.expanded : GrammarParser }
  if 1 ≤ c.product then
    pure { seq with
      rule := if 0 < c.nOpt then rule ++ [⟨.ruleRef, made.2⟩] else rule
      nPrevRules := c.product }
  else throw .assertion

/-- The number behind the comma, where there is one. -/
def parseMax (pos : Text) (nested : Bool) : ParseM (Nat × Text) := do
  if isDigitChar (peek pos) then
    let (digits, pos) ← parseInt pos
    let maxTimes ← stoull digits
    pure (maxTimes, parseSpace pos nested)
  else pure (UINT64_MAX, pos)

/-- The numbers in braces, from behind the open one. -/
def parseBounds (pos : Text) (nested : Bool) : ParseM ((Nat × Nat) × Text) := do
  expect (isDigitChar (peek pos)) "expecting an int at "
  let (digits, pos) ← parseInt pos
  let minTimes ← stoull digits
  let pos := parseSpace pos nested
  if peek pos = '}'.toUInt8 then pure ((minTimes, minTimes), parseSpace pos.tail nested)
  else
    expect (peek pos = ','.toUInt8) "expecting ',' at "
    let (maxTimes, pos) ← parseMax (parseSpace pos.tail nested) nested
    expect (peek pos = '}'.toUInt8) "expecting '\x7d' at "
    pure ((minTimes, maxTimes), parseSpace pos.tail nested)

/-! ### Sequences -/

/-- A round of the loop over a literal string. -/
def literalRound (v : Rule × Text) : ParseM ((Rule × Text) ⊕ (Rule × Text)) := do
  if peek v.2 = '"'.toUInt8 then pure (.inr v)
  else
    expect (peek v.2 ≠ 0) "unexpected end of input"
    let (c, pos) ← parseChar v.2
    pure (.inl (v.1 ++ [⟨.char, c⟩], pos))

/-- A round of the loop over the ranges of a class. -/
def classRound (startType : Gretype) (v : Rule × Text) : ParseM ((Rule × Text) ⊕ (Rule × Text)) := do
  if peek v.2 = ']'.toUInt8 then pure (.inr v)
  else
    expect (peek v.2 ≠ 0) "unexpected end of input"
    let (c, pos) ← parseChar v.2
    let rule := v.1 ++ [⟨if v.1 ≠ [] then .charAlt else startType, c⟩]
    if peek pos = '-'.toUInt8 && peek pos.tail ≠ ']'.toUInt8 then
      expect (peek pos.tail ≠ 0) "unexpected end of input"
      let (upper, pos) ← parseChar pos.tail
      pure (.inl (rule ++ [⟨.charRngUpper, upper⟩], pos))
    else pure (.inl (rule, pos))

/-- `get_symbol_id` and `generate_symbol_id` on the parser. -/
def onTables {α : Type} (f : Tables → α × Tables) : ParseM α := do
  let p ← get
  let made := f p.tables
  set { p with tables := made.2 }
  pure made.1

/-- A round of the loop of `parse_sequence`; `alternates` parses a group with a rule number. -/
def sequenceRound (vocab : Option (Text → List Nat)) (alternates : Text → Nat → ParseM Text)
    (ruleName : Text) (nested : Bool) (seq : Sequence) : ParseM (Sequence ⊕ Sequence) := do
  let c := peek seq.pos
  let pos := seq.pos.tail
  if c = '"'.toUInt8 then
    let (item, pos) ← iterate .noFuel literalRound (pos.length + 1) ([], pos)
    pure (.inl (seq.push item (parseSpace pos.tail nested)))
  else if c = '['.toUInt8 then
    let negated := peek pos = '^'.toUInt8
    let pos := if negated then pos.tail else pos
    let (item, pos) ← iterate .noFuel (classRound (if negated then .charNot else .char))
      (pos.length + 1) ([], pos)
    pure (.inl (seq.push item (parseSpace pos.tail nested)))
  else if c = '<'.toUInt8 || c = '!'.toUInt8 then
    let inverse := c = '!'.toUInt8
    let (token, pos) ← parseToken vocab (if inverse then pos else seq.pos)
    pure (.inl (seq.push [⟨if inverse then .tokenNot else .token, token⟩] (parseSpace pos nested)))
  else if isWordChar c then
    let (name, pos) ← parseName seq.pos
    let refRuleId ← onTables fun t => t.getSymbolId name
    pure (.inl (seq.push [⟨.ruleRef, refRuleId⟩] (parseSpace pos nested)))
  else if c = '('.toUInt8 then
    let nRulesBefore := (← get).tables.symbolIds.length
    let subRuleId ← onTables fun t => t.generateSymbolId ruleName
    let pos ← alternates (parseSpace pos true) subRuleId
    let nRules := (← get).tables.symbolIds.length
    let nPrevRules := max 1 ((nRules % 2 ^ 32 + 2 ^ 32 - nRulesBefore % 2 ^ 32) % 2 ^ 32)
    expect (peek pos = ')'.toUInt8) "expecting ')' at "
    pure (.inl (seq.push [⟨.ruleRef, subRuleId⟩] (parseSpace pos.tail nested) nPrevRules))
  else if c = '.'.toUInt8 then
    pure (.inl (seq.push [⟨.charAny, 0⟩] (parseSpace pos nested)))
  else if c = '*'.toUInt8 then
    let seq ← handleRepetitions ruleName { seq with pos := parseSpace pos nested } 0 UINT64_MAX
    pure (.inl seq)
  else if c = '+'.toUInt8 then
    let seq ← handleRepetitions ruleName { seq with pos := parseSpace pos nested } 1 UINT64_MAX
    pure (.inl seq)
  else if c = '?'.toUInt8 then
    let seq ← handleRepetitions ruleName { seq with pos := parseSpace pos nested } 0 1
    pure (.inl seq)
  else if c = '{'.toUInt8 then
    let (bounds, pos) ← parseBounds (parseSpace pos nested) nested
    expect (bounds.1 ≤ MAX_REPETITION_THRESHOLD &&
      (bounds.2 = UINT64_MAX || bounds.2 ≤ MAX_REPETITION_THRESHOLD)) "number of repetitions"
    let seq ← handleRepetitions ruleName { seq with pos } bounds.1 bounds.2
    pure (.inl seq)
  else pure (.inr seq)

def parseSequence (vocab : Option (Text → List Nat)) (alternates : Text → Nat → ParseM Text)
    (ruleName : Text) (nested : Bool) (rule : Rule) (src : Text) : ParseM Sequence :=
  iterate .noFuel (sequenceRound vocab alternates ruleName nested) (src.length + 1)
    { pos := src, rule, lastSymStart := rule.length }

/-- A round of the loop of `parse_alternates`. -/
def alternatesRound (vocab : Option (Text → List Nat)) (alternates : Text → Nat → ParseM Text)
    (ruleName : Text) (nested : Bool) (seq : Sequence) : ParseM (Sequence ⊕ Sequence) := do
  if peek seq.pos = '|'.toUInt8 then
    let seq ← parseSequence vocab alternates ruleName nested (seq.rule ++ [⟨.alt, 0⟩])
      (parseSpace seq.pos.tail true)
    pure (.inl seq)
  else pure (.inr seq)

/-- `parse_alternates`. The fuel bounds how deep groups nest; the groups in this one are nested. -/
def parseAlternates (vocab : Option (Text → List Nat)) (ruleName : Text) :
    Nat → Bool → Text → Nat → ParseM Text
  | 0, _, _, _ => throw .noFuel
  | fuel + 1, nested, src, ruleId => do
    let group := parseAlternates vocab ruleName fuel true
    let seq ← parseSequence vocab group ruleName nested [] src
    let seq ← iterate .noFuel (alternatesRound vocab group ruleName nested) (seq.pos.length + 1) seq
    onTables fun t => ((), t.addRule ruleId (seq.rule ++ [⟨.end, 0⟩]))
    pure seq.pos

/-! ### Rules -/

def parseRule (vocab : Option (Text → List Nat)) (src : Text) : ParseM Text := do
  let (name, pos) ← parseName src
  let pos := parseSpace pos false
  let ruleId ← onTables fun t => t.getSymbolId name
  expect (pos.take 3 = [':'.toUInt8, ':'.toUInt8, '='.toUInt8]) "expecting ::= at "
  let pos := parseSpace (pos.drop 3) true
  let pos ← parseAlternates vocab name (pos.length + 1) false pos ruleId
  if peek pos = '\r'.toUInt8 then
    pure (parseSpace (if peek pos.tail = '\n'.toUInt8 then pos.drop 2 else pos.tail) true)
  else if peek pos = '\n'.toUInt8 then pure (parseSpace pos.tail true)
  else
    expect (peek pos = 0) "expecting newline or end at "
    pure (parseSpace pos true)

/-- A round of the loop of `parse`. -/
def rulesRound (vocab : Option (Text → List Nat)) (pos : Text) : ParseM (Text ⊕ Unit) := do
  if peek pos = 0 then pure (.inr ())
  else
    let pos ← parseRule vocab pos
    pure (.inl pos)

def parseRules (vocab : Option (Text → List Nat)) (src : Text) : ParseM Unit :=
  iterate .noFuel (rulesRound vocab) (src.length + 1) (parseSpace src true)

/-- `parse`: whether the text is accepted, and the parser after it. -/
def parse (vocab : Option (Text → List Nat)) (src : Text) : Except Stop Bool × GrammarParser :=
  let clear (p : GrammarParser) (ok : Bool) : GrammarParser :=
    { p with tables := if ok then p.tables else { p.tables with rules := [] } }
  match (parseRules vocab src).run.run {} with
  | (.ok _, p) => (.ok p.tables.valid, clear p p.tables.valid)
  | (.error (.thrown _), p) => (.ok false, clear p false)
  | (.error stop, p) => (.error stop, p)

end PxqLlama.Grammar.Parser
