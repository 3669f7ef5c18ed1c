import PxqLlama.Lib.GreedyRegex

/-!
# `Common.RegexPartial`: searching for a pattern that may end in the middle

`common_regex` searches for a pattern in a text that still grows. When the pattern does not match,
a second expression is tried on the reversed text: `regex_to_reversed_partial_regex` rewrites the
pattern so that it matches what may be the beginning of a match at the end of the text.

Patterns are the trees of the ECMAScript grammar without assertions, back references, reluctant
quantifiers and empty branches. `Alts.text` is how a tree is written and `Alts.regex` what
`std::regex` makes of it. `CommonRegex` holds the two trees that the two texts are written from.
What a symbol matches is a parameter, so classes and escapes are taken as ECMAScript has them. Of a
full match the ranges of the capturing groups are left out.

The rewriting is `process`. It tells apart how it fails (`Fault`): what the source throws, a read
past the end of the pattern, and the loop over `parts.size() - 1` groups when there is no part.
-/

namespace PxqLlama.Common

/-! ### Patterns -/

/-- A character that is a symbol by itself. `.` is one, and stands for any character. -/
def isPlain (c : Char) : Bool :=
  ! ['^', '$', '\\', '*', '+', '?', '(', ')', '[', '{', '|'].contains c

/-- A character that is a symbol after a backslash. Digits are back references, `b` and `B`
assertions, and `c`, `u` and `x` begin longer escapes. -/
def isEscape (c : Char) : Bool := !(c.isDigit || ['b', 'B', 'c', 'u', 'x'].contains c)

/-- A character in brackets, where a backslash takes the next one with it. -/
inductive ClassChar
  | plain (c : Char) (h : (c != '\\' && c != ']') = true)
  | escape (c : Char)

def ClassChar.text : ClassChar → List Char
  | plain c _ => [c]
  | escape c => ['\\', c]

/-- What matches one character. -/
inductive Sym
  | plain (c : Char) (h : isPlain c = true)
  | escape (c : Char) (h : isEscape c = true)
  | cls (body : List ClassChar)

def Sym.text : Sym → List Char
  | plain c _ => [c]
  | escape c _ => ['\\', c]
  | cls body => '[' :: (body.flatMap ClassChar.text ++ [']'])

/-- The value of digits. -/
def digitsValue (digits : List Char) : Nat :=
  digits.foldl (fun v c => 10 * v + (c.toNat - '0'.toNat)) 0

/-- A number in braces, up to the greatest `int`. -/
structure Count where
  digits : List Char
  ne_nil : digits ≠ []
  isDigit : digits.all Char.isDigit = true
  fits : digitsValue digits ≤ 2147483647

abbrev Count.value (n : Count) : Nat := digitsValue n.digits

inductive Suffix
  | star
  | plus
  | opt

def Suffix.char : Suffix → Char
  | star => '*'
  | plus => '+'
  | opt => '?'

inductive Quant
  | once
  | rep (s : Suffix)
  | exactly (m : Count)
  | atLeast (m : Count)
  | between (m n : Count) (h : m.value ≤ n.value)

/-- What stands between the braces. -/
def Quant.range : (m : Count) → (n : Option (Option Count)) → List Char
  | m, none => m.digits
  | m, some none => m.digits ++ [',']
  | m, some (some n) => m.digits ++ ',' :: n.digits

def Quant.text : Quant → List Char
  | once => []
  | rep s => [s.char]
  | exactly m => '{' :: (range m none ++ ['}'])
  | atLeast m => '{' :: (range m (some none) ++ ['}'])
  | between m n _ => '{' :: (range m (some (some n)) ++ ['}'])

def Quant.apply {σ : Type} : Quant → Regex σ → Regex σ
  | once, r => r
  | rep .star, r => .rep r 0 none
  | rep .plus, r => .rep r 1 none
  | rep .opt, r => .rep r 0 (some 1)
  | exactly m, r => .rep r m.value (some 0)
  | atLeast m, r => .rep r m.value none
  | between m n _, r => .rep r m.value (some (n.value - m.value))

mutual

/-- An element with its quantifier. -/
inductive Item
  | sym (s : Sym) (q : Quant)
  | group (capture : Bool) (body : Alts) (q : Quant)

/-- One or more elements. -/
inductive Branch
  | one (i : Item)
  | cons (i : Item) (b : Branch)

/-- One or more branches, with `|` between them. -/
inductive Alts
  | one (b : Branch)
  | cons (b : Branch) (a : Alts)

end

/-- The beginning of a group. -/
def openText (capture : Bool) : List Char := if capture then ['('] else ['(', '?', ':']

mutual

def Item.text : Item → List Char
  | .sym s q => s.text ++ q.text
  | .group capture body q => openText capture ++ (body.text ++ ')' :: q.text)

def Branch.text : Branch → List Char
  | .one i => i.text
  | .cons i b => i.text ++ b.text

def Alts.text : Alts → List Char
  | .one b => b.text
  | .cons b a => b.text ++ '|' :: a.text

end

mutual

def Item.regex : Item → Regex Sym
  | .sym s q => q.apply (.sym s)
  | .group _ body q => q.apply body.regex

def Branch.regex : Branch → Regex Sym
  | .one i => i.regex
  | .cons i b => .seq i.regex b.regex

def Alts.regex : Alts → Regex Sym
  | .one b => b.regex
  | .cons b a => .alt b.regex a.regex

end

/-! ### The rewriting -/

/-- How the rewriting fails: an exception of the source, a read past the end of the pattern, or the
loop that opens groups when its bound has wrapped. `unfinished` is the model's own: its fuel is used
up. -/
inductive Fault where
  | throws (message : String)
  | pastEnd
  | opensGroups
  | unfinished
deriving DecidableEq

/-- What throws in the source. -/
def throwing {α : Type} : Except String α → Except Fault α
  | .ok a => .ok a
  | .error message => .error (.throws message)

/-- The loop from `[` on: the text up to the bracket that closes it, and what is behind. -/
def classEnd : List Char → Except Fault (List Char × List Char)
  | [] => .error (.throws "Unmatched '[' in pattern")
  | c :: it =>
    if c = '\\' then
      match it with
      | [] => .error .pastEnd
      | d :: it => do
        let r ← classEnd it
        .ok (c :: d :: r.1, r.2)
    else if c = ']' then .ok ([c], it)
    else do
      let r ← classEnd it
      .ok (c :: r.1, r.2)

/-- Whether there is a minus sign, and what is behind the sign. -/
def splitSign : List Char → Bool × List Char
  | '-' :: s => (true, s)
  | '+' :: s => (false, s)
  | s => (false, s)

/-- The exceptions of `std::stoi`. -/
inductive StoiError where
  | invalidArgument
  | outOfRange

def INT_MAX : Int := 2147483647

/-- `isspace`. -/
def isSpace (c : Char) : Bool := c = ' ' || ('\t' ≤ c && c ≤ '\r')

/-- `std::stoi`. -/
def stoi (s : List Char) : Except StoiError Int :=
  let signed := splitSign (s.dropWhile isSpace)
  let digits := signed.2.takeWhile Char.isDigit
  let value : Int := if signed.1 then -(digitsValue digits : Int) else digitsValue digits
  if digits = [] then .error .invalidArgument
  else if value < -INT_MAX - 1 ∨ INT_MAX < value then .error .outOfRange
  else .ok value

/-- `parseOptInt`. Both exceptions of `std::stoi` leave the rewriting. -/
def parseOptInt (s : List Char) (dflt : Option Int) : Except String (Option Int) :=
  if s = [] then .ok dflt
  else
    match stoi s with
    | .ok value => .ok (some value)
    | .error _ => .error "stoi"

/-- The branch for `{`, behind it: `min`, `max` and what is behind `}`. -/
def parseRange (it : List Char) : Except String (Int × Option Int × List Char) :=
  let range := it.takeWhile (· != '}')
  match it.dropWhile (· != '}') with
  | [] => .error "Unmatched '\x7b' in pattern"
  | _ :: it =>
    let parts := range.splitOn ','
    if 2 < parts.length then .error "Invalid repetition range in pattern"
    else do
      let min ← parseOptInt (parts.headD []) (some 0)
      let max ← if parts.length = 1 then .ok min else parseOptInt (parts.getD 1 []) none
      let min := min.getD 0
      if max.any (· < min) then .error "Invalid repetition range in pattern"
      else .ok (min, max, it)

/-- The parts that take the place of a repeated part. -/
def repeatPart (part : List Char) (min : Int) (max : Option Int) : List (List Char) :=
  List.replicate min.toNat part ++
    match max with
    | some max => List.replicate (max - min).toNat (part ++ ['?'])
    | none => [part ++ ['*']]

/-- The rewriting of one alternative: its parts from the last to the first, each but the first
behind an optional group. `parts.size() - 1` wraps when there is none. -/
def reverseParts (parts : List (List Char)) : Except Fault (List Char) :=
  if parts = [] then .error .opensGroups
  else .ok ((List.replicate (parts.length - 1) ['(', '?', ':']).flatten ++
    List.intercalate [')', '?'] parts.reverse)

/-- What `process` returns at the end of its loop. -/
def joinAlternatives (alternatives : List (List (List Char))) (it : List Char) :
    Except Fault (List Char × List Char) := do
  let resAlts ← alternatives.mapM reverseParts
  .ok (List.intercalate ['|'] resAlts, it)

/-- The iterator behind `(`, and behind the mark of a group that does not capture. -/
def openGroup (it : List Char) : List Char := if it.take 2 = ['?', ':'] then it.drop 2 else it

/-- `process`: the loop with its `alternatives`, the last of which is `sequence`, and its iterator,
which is what is left of the pattern. It returns the rewritten text and the iterator. Each round
reads a character, so `fuel` is enough when it is above the number of characters. An iterator at the
end of the pattern leaves it when it is dereferenced, as behind a group that is not closed, or
advanced, as by a backslash at the end of a class. -/
def process : (fuel : Nat) → (alternatives : List (List (List Char))) →
    (sequence : List (List Char)) → List Char → Except Fault (List Char × List Char)
  | 0, _, _, _ => .error .unfinished
  | _ + 1, alternatives, sequence, [] => joinAlternatives (alternatives ++ [sequence]) []
  | fuel + 1, alternatives, sequence, c :: it =>
    if c = '[' then do
      let r ← classEnd it
      process fuel alternatives (sequence ++ [c :: r.1]) r.2
    else if c = '*' ∨ c = '?' ∨ c = '+' then
      match sequence.getLast? with
      | none => .error (.throws "Quantifier without preceding element")
      | some part =>
        -- a `?` behind a star would make it reluctant
        process fuel alternatives (sequence.dropLast ++ [part ++ [c]])
          (if c = '*' ∧ it.head? = some '?' then it.tail else it)
    else if c = '{' then
      match sequence.getLast? with
      | none => .error (.throws "Repetition without preceding element")
      | some part => do
        let r ← throwing (parseRange it)
        process fuel alternatives (sequence.dropLast ++ repeatPart part r.1 r.2.1) r.2.2
    else if c = '(' then do
      let sub ← process fuel [] [] (openGroup it)
      match sub.2 with
      | [] => .error .pastEnd
      | d :: it =>
        if d = ')' then
          process fuel alternatives (sequence ++ [['(', '?', ':'] ++ (sub.1 ++ [')'])]) it
        else .error (.throws "Unmatched '(' in pattern")
    else if c = ')' then joinAlternatives (alternatives ++ [sequence]) (c :: it)
    else if c = '|' then process fuel (alternatives ++ [sequence]) [] it
    else if c = '\\' then
      match it.head? with
      | none => process fuel alternatives sequence []
      | some d => process fuel alternatives (sequence ++ [[c, d]]) it.tail
    else process fuel alternatives (sequence ++ [[c]]) it

/-- `regex_to_reversed_partial_regex`. -/
def regexToReversedPartialRegex (pattern : List Char) : Except Fault (List Char) := do
  let r ← process (pattern.length + 1) [] [] pattern
  if r.2 ≠ [] then .error (.throws "Unmatched '(' in pattern")
  else .ok (['^', '('] ++ (r.1 ++ [')']))

/-! ### The search -/

/-- `common_regex`: the pattern, and the trees that `std::regex` makes of it and of the rewritten
pattern. -/
structure CommonRegex where
  pattern : List Char
  rx : Alts
  rxReversedPartial : Alts
  rx_text : rx.text = pattern
  rxReversedPartial_text :
    regexToReversedPartialRegex pattern = .ok (['^', '('] ++ (rxReversedPartial.text ++ [')']))

/-- `common_regex_match`. -/
inductive CommonRegexMatch
  | noMatch
  | partialMatch (start stop : Nat)
  | fullMatch (start stop : Nat)
  deriving DecidableEq

section
variable (accepts : Sym → Char → Bool)

/-- `std::regex_search`: the first place, and there the preferred way. -/
def regexSearch (r : Regex Sym) : (pos : Nat) → List Char → Option (Nat × Nat)
  | pos, [] => (r.run accepts []).head?.map fun _ => (pos, pos)
  | pos, c :: t =>
    match (r.run accepts (c :: t)).head? with
    | some rest => some (pos, pos + ((c :: t).length - rest.length))
    | none => regexSearch r (pos + 1) t

/-- `std::regex_match`. -/
def regexMatch (r : Regex Sym) (pos : Nat) (t : List Char) : Option (Nat × Nat) :=
  if (r.run accepts t).contains [] then some (pos, pos + t.length) else none

/-- `common_regex::search`. -/
def CommonRegex.search (c : CommonRegex) (input : List Char) (pos : Nat) (asMatch : Bool) :
    Except String CommonRegexMatch :=
  if input.length < pos then .error "Position out of bounds"
  else
    let rest := input.drop pos
    let found := if asMatch then regexMatch accepts c.rx.regex pos rest
      else regexSearch accepts c.rx.regex pos rest
    match found with
    | some (start, stop) => .ok (.fullMatch start stop)
    | none =>
      match (c.rxReversedPartial.regex.run accepts rest.reverse).head? with
      | none => .ok .noMatch
      | some left =>
        let group := rest.length - left.length
        -- The end of the group in the reversed text is where the match begins.
        let start := input.length - group
        if group ≠ 0 ∧ (asMatch = false ∨ start = 0) then .ok (.partialMatch start input.length)
        else .ok .noMatch

end

end PxqLlama.Common
