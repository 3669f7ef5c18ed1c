import PxqLlama.Lib.CountTrie

/-!
# `Spec.SuffixTree`: the suffix tree of the token history

`common_suffix_tree` keeps the history and a trie of its suffixes, each cut after `max_depth`
tokens. `extend` adds tokens to the history: the suffixes that ended at the old end are lengthened,
and those that start in the new tokens are inserted. `speculate` follows the end of the context
into the trie, and from there the child with the largest count. Places in the history are `int` in
the source, so a history has fewer than `2 ^ 31` tokens.

The scores are floating point numbers. They choose between the drafts and nothing else depends on
them, so their operations are a parameter, as is the order in which an `unordered_map` is read.
-/

namespace PxqLlama.Spec

abbrev Token := Int

/-- `common_suffix_tree`. -/
structure SuffixTree where
  maxDepth : Nat
  root : CountTrie Token := .empty
  tokens : List Token := []
  nInserted : Nat := 0

namespace SuffixTree

/-! ### Extending the history -/

/-- `_insert_suffix`. -/
def insertSuffix (t : SuffixTree) (startPos : Nat) : SuffixTree :=
  let total := t.tokens.length
  let len := min (total - startPos) t.maxDepth
  { t with root := t.root.bump ((t.tokens.drop startPos).take len) }

/-- `_extend_suffix`. -/
def extendSuffix (t : SuffixTree) (startPos oldLen newLen : Nat) : SuffixTree :=
  let suffix := t.tokens.drop startPos
  { t with root := t.root.bumpBelow (suffix.take oldLen) ((suffix.drop oldLen).take (newLen - oldLen)) }

/-- The body of the loop in `extend`. -/
def extendAt (oldSize newSize : Nat) (t : SuffixTree) (i : Nat) : SuffixTree :=
  if i < t.nInserted then
    let oldLen := min (oldSize - i) t.maxDepth
    let newLen := min (newSize - i) t.maxDepth
    if oldLen < newLen then t.extendSuffix i oldLen newLen else t
  else t.insertSuffix i

/-- `extend`. -/
def extend (t : SuffixTree) (tokens : List Token) : SuffixTree :=
  if tokens = [] then t
  else
    let oldSize := t.tokens.length
    let t := { t with tokens := t.tokens ++ tokens }
    let newSize := t.tokens.length
    let reinsertFrom := oldSize - t.maxDepth
    let t := (List.range' reinsertFrom (newSize - reinsertFrom)).foldl (extendAt oldSize newSize) t
    { t with nInserted := newSize }

/-- The tree after the calls of `extend`, from a new one on. -/
def ofChunks (maxDepth : Nat) (chunks : List (List Token)) : SuffixTree :=
  chunks.foldl extend { maxDepth }

/-! ### Speculating -/

/-- The arithmetic of the scores: `mulRatio p a b` is `p * (float)a / (float)b`. -/
structure ScoreOps (F : Type) where
  zero : F
  one : F
  mulRatio : F → Nat → Nat → F
  add : F → F → F
  lt : F → F → Bool

/-- The order in which the entries of an `unordered_map` are read. -/
structure MapOrder where
  read : List (Token × CountTrie Token) → List (Token × CountTrie Token)
  perm_read : ∀ es : List (Token × CountTrie Token), (read es).Perm es

section

variable {F : Type} (ops : ScoreOps F) (order : MapOrder)

/-- The token and the count of the child with the largest count, the first one of them. -/
def bestChild (cur : CountTrie Token) : Token × Nat :=
  (order.read cur.children).foldl
    (fun best e => if best.2 < e.2.count then (e.1, e.2.count) else best) (-1, 0)

/-- The loop that follows the best children: the draft and its score. `none` is the exception of
`children.at`. -/
def followBest (minTokenProb : F) :
    (limit : Nat) → (cur : CountTrie Token) → (prob score : F) → Option (List Token × F)
  | 0, _, _, score => some ([], score)
  | limit + 1, cur, prob, score =>
    if cur.children = [] then some ([], score)
    else
      let best := bestChild order cur
      let prob := ops.mulRatio prob best.2 cur.count
      if ops.lt prob minTokenProb then some ([], score)
      else do
        let next ← cur.child best.1
        let (draft, score) ← followBest minTokenProb limit next prob (ops.add score prob)
        some (best.1 :: draft, score)

/-- The loop over the match lengths, with the best draft so far and its score. -/
def speculateFrom (t : SuffixTree) (context : List Token) (maxSpecTokens : Nat) (minTokenProb : F)
    (minMatchCount : Int) :
    (matchLens : List Nat) → (bestDraft : List Token) → (bestScore : F) → Option (List Token)
  | [], bestDraft, _ => some bestDraft
  | matchLen :: matchLens, bestDraft, bestScore =>
    match t.root.find? (context.drop (context.length - matchLen)) with
    | none => some bestDraft
    | some node =>
      if (node.count : Int) < minMatchCount ∨ node.children = [] then
        speculateFrom t context maxSpecTokens minTokenProb minMatchCount matchLens bestDraft
          bestScore
      else do
        let draftLimit := min maxSpecTokens (matchLen + 8)
        let (draft, score) ← followBest ops order minTokenProb draftLimit node ops.one ops.zero
        if ops.lt bestScore score ∧ draft ≠ [] then
          speculateFrom t context maxSpecTokens minTokenProb minMatchCount matchLens draft score
        else
          speculateFrom t context maxSpecTokens minTokenProb minMatchCount matchLens bestDraft
            bestScore

/-- `speculate`. -/
def speculate (t : SuffixTree) (context : List Token) (maxSpecTokens : Int) (minTokenProb : F)
    (minMatchCount minMatchLen : Int) : Option (List Token) :=
  if context = [] ∨ maxSpecTokens ≤ 0 then some []
  else
    let context := context.drop (context.length - t.maxDepth)
    let first := (max 1 minMatchLen).toNat
    speculateFrom ops order t context maxSpecTokens.toNat minTokenProb minMatchCount
      (List.range' first (context.length + 1 - first)) [] ops.zero

end

end SuffixTree

end PxqLlama.Spec
