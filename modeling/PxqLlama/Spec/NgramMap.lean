import Mathlib.Algebra.GroupWithZero.Nat
import PxqLlama.Spec.SuffixTree

/-!
# `Spec.NgramMap`: the map from n-grams to the m-grams behind them

`common_ngram_map` remembers places of the token history: a hash table with the place of an n-gram,
and a list of keys with the places of up to four m-grams that followed the key. The history itself
is not kept. Each call of `draft` is given one and reads it at the places that are stored.

A read of the history outside it, a subtraction that wraps, and the abort on a history that does not
fit 32 bits are errors of the model.
-/

namespace PxqLlama.Spec

/-- `common_ngram_map_value`: a place of 0 is unused. -/
structure MapValue where
  valueIdx : Nat := 0
  valueNum : Nat := 0
  nAccepted : Int := -1
deriving DecidableEq, Repr

/-- `common_ngram_map_key`. -/
structure MapKey where
  keyIdx : Nat
  statIdx : Nat
  keyNum : Nat
  values : List MapValue
deriving DecidableEq, Repr

/-- `common_ngram_map`. The hash table has `keyMapSize` entries, none if it is not used. -/
structure NgramMap where
  sizeKey : Nat
  sizeValue : Nat
  keyOnly : Bool
  minHits : Nat
  keys : List MapKey := []
  sizeLastBegin : Nat := 0
  lastDraftCreated : Bool := false
  lastDraftKeyIdx : Nat := 0
  lastDraftValueIdx : Nat := 0
  idxLastCheck : Nat := 0
  keyMapSize : Nat := 262144
  keyMap : Nat → Nat := fun _ => 0
  keyMapLastIdx : Nat := 0

/-- What the code must not do. -/
inductive Fault where
  | outOfRange
  | wraps
  | aborts
deriving DecidableEq, Repr

namespace NgramMap

/-- `COMMON_NGRAM_MAX_VALUES`. -/
def maxValues : Nat := 4

/-- `COMMON_NGRAM_MAX_VALUE_COUNT`. -/
def maxValueCount : Nat := 16380

/-- The conversion of a `uint16_t` to an `int16_t`. -/
def toInt16 (n : Nat) : Int := (n : Int).bmod (2 ^ 16)

/-! ### Reading the history -/

def readAt (inp : List Token) (i : Nat) : Except Fault Token :=
  match inp[i]? with
  | some t => .ok t
  | none => .error .outOfRange

/-- The difference of two numbers of type `size_t`. -/
def sub (a b : Nat) : Except Fault Nat :=
  if b ≤ a then .ok (a - b) else .error .wraps

/-- The comparison of an n-gram with the history at a place, up to the first difference. -/
def matchAt (inp : List Token) : (i : Nat) → (gram : List Token) → Except Fault Bool
  | _, [] => .ok true
  | i, t :: gram => do
    let x ← readAt inp i
    if x = t then matchAt inp (i + 1) gram else .ok false

/-- The comparison of two m-grams of the history. -/
def sameAt (inp : List Token) : (i j : Nat) → (m : Nat) → Except Fault Bool
  | _, _, 0 => .ok true
  | i, j, m + 1 => do
    let x ← readAt inp i
    let y ← readAt inp j
    if x = y then sameAt inp (i + 1) (j + 1) m else .ok false

/-- The tokens of the history from a place on. -/
def copyFrom (inp : List Token) : (i : Nat) → (m : Nat) → Except Fault (List Token)
  | _, 0 => .ok []
  | i, m + 1 => do
    let x ← readAt inp i
    let rest ← copyFrom inp (i + 1) m
    .ok (x :: rest)

/-- `common_ngram_map_hash`, with the hash of the tokens before the place. -/
def hashFrom (tokens : List Token) : (i : Nat) → (len : Nat) → (hash : Nat) → Except Fault Nat
  | _, 0, hash => .ok hash
  | i, len + 1, hash => do
    let t ← readAt tokens i
    hashFrom tokens (i + 1) len (((hash : Int) * 2654435761 + t) % 2 ^ 32).toNat

/-! ### `common_ngram_map_begin` -/

/-- The loop over the values of a key, from the last one on: a value that is deleted moves the ones
behind it to the left, and the last one is cleared. -/
def pruneValues (sizeLastBegin : Nat) (values : List MapValue) : List MapValue :=
  values.foldr (fun v rest =>
    if sizeLastBegin ≤ v.valueIdx then
      rest ++ [{ (v :: rest).getLast (by simp) with valueIdx := 0, valueNum := 0 }]
    else v :: rest) []

/-- A key when the map is refreshed, `none` if it is deleted. -/
def refreshKey (map : NgramMap) (key : MapKey) : Option MapKey :=
  if map.sizeLastBegin ≤ key.keyIdx then none
  else if map.keyOnly then some key
  else
    let values := pruneValues map.sizeLastBegin key.values
    if (values.map MapValue.valueIdx).headD 0 = 0 then none else some { key with values }

/-- `common_ngram_map_begin`. -/
def start (map : NgramMap) (tokens : List Token) : NgramMap :=
  let sizeBegin := tokens.length
  let shrinks := sizeBegin < map.idxLastCheck
  { map with
    keyMap := fun i =>
      if shrinks ∧ map.sizeLastBegin ≤ map.keyMap i then 0 else map.keyMap i
    keyMapLastIdx :=
      if map.keyMapSize ≠ 0 ∧ shrinks then map.sizeLastBegin - 1 else map.keyMapLastIdx
    keys := if shrinks then map.keys.filterMap (refreshKey map) else map.keys
    idxLastCheck := sizeBegin
    sizeLastBegin := sizeBegin }

/-! ### `common_ngram_map_draft` -/

/-- The n-gram that is looked for: the last tokens of the history and the sampled one. -/
def keyTokens (map : NgramMap) (inp : List Token) (sampled : Token) :
    Except Fault (List Token) := do
  let before ← sub inp.length map.sizeKey
  let last ← copyFrom inp (before + 1) (map.sizeKey - 1)
  .ok (last ++ [sampled])

/-- `cur_len - n - m - 1`. -/
def lastPlace (map : NgramMap) (len : Nat) : Except Fault Nat :=
  sub len (map.sizeKey + map.sizeValue + 1)

/-- The place that the hash table has for the n-gram, 0 if there is none. -/
def lookupKeyMap (map : NgramMap) (inp gram : List Token) : Except Fault Nat :=
  if map.keyMapSize = 0 then .ok 0
  else do
    let hash ← hashFrom gram 0 map.sizeKey 0
    let idxKey := map.keyMap (hash % map.keyMapSize)
    let last ← lastPlace map inp.length
    if idxKey ≠ 0 ∧ idxKey < last then
      let found ← matchAt inp idxKey gram
      .ok (if found then idxKey else 0)
    else .ok 0

/-- The search for the n-gram at the places above `low`, from the place `j` down. -/
def searchDown (inp gram : List Token) (low : Nat) : (j : Nat) → Except Fault Nat
  | 0 => .ok 0
  | j + 1 =>
    if j + 1 ≤ low then .ok 0
    else do
      let found ← matchAt inp (j + 1) gram
      if found then .ok (j + 1) else searchDown inp gram low j

/-- The search before the previous begin size, if nothing was found yet. -/
def searchOld (map : NgramMap) (inp gram : List Token) (place : Nat) : Except Fault Nat :=
  if place = 0 ∧ map.sizeKey + map.sizeValue + 1 < map.sizeLastBegin then do
    let first ← lastPlace map map.sizeLastBegin
    searchDown inp gram map.keyMapLastIdx first
  else .ok place

/-- The search behind it. -/
def searchNew (map : NgramMap) (inp gram : List Token) (place : Nat) : Except Fault Nat :=
  if place = 0 then do
    let first ← lastPlace map inp.length
    searchDown inp gram (max map.sizeLastBegin map.keyMapLastIdx) first
  else .ok place

/-- The three searches, one after another. -/
def findMatch (map : NgramMap) (inp gram : List Token) : Except Fault Nat := do
  let place ← lookupKeyMap map inp gram
  let place ← searchOld map inp gram place
  searchNew map inp gram place

/-- The hashes of the n-grams at the places above `low` are added, from the place `j` down. An
entry that is in use stays. -/
def addHashesDown (map : NgramMap) (inp : List Token) (low : Nat) :
    (j : Nat) → (keyMap : Nat → Nat) → Except Fault (Nat → Nat)
  | 0, keyMap => .ok keyMap
  | j + 1, keyMap =>
    if j + 1 ≤ low then .ok keyMap
    else do
      let hash ← hashFrom inp (j + 1) map.sizeKey 0
      let idxHash := hash % map.keyMapSize
      addHashesDown map inp low j
        (if keyMap idxHash = 0 then Function.update keyMap idxHash (j + 1) else keyMap)

/-- The hashes of the n-grams before the previous begin size are added. -/
def addHashesOld (map : NgramMap) (inp : List Token) : Except Fault (Nat → Nat) :=
  if map.sizeKey + map.sizeValue + 1 < map.sizeLastBegin then do
    let first ← lastPlace map map.sizeLastBegin
    addHashesDown map inp map.keyMapLastIdx first map.keyMap
  else .ok map.keyMap

/-- The part of `draft` that adds the hashes of new n-grams. -/
def addHashes (map : NgramMap) (inp : List Token) : Except Fault NgramMap :=
  if map.keyMapSize = 0 then .ok map
  else do
    let keyMap ← addHashesOld map inp
    let last ← lastPlace map inp.length
    let keyMap ← addHashesDown map inp (max map.sizeLastBegin map.keyMapLastIdx) last keyMap
    .ok { map with keyMap, keyMapLastIdx := max last map.keyMapLastIdx }

/-- The first key that stands for the n-gram, the number of keys if there is none. -/
def findKey (inp gram : List Token) : List MapKey → Except Fault Nat
  | [] => .ok 0
  | key :: keys => do
    let found ← matchAt inp key.keyIdx gram
    if found then .ok 0
    else
      let offset ← findKey inp gram keys
      .ok (offset + 1)

def newKey (map : NgramMap) (matchPos : Nat) : MapKey where
  keyIdx := matchPos
  statIdx := 0
  keyNum := 0
  values := List.replicate maxValues { nAccepted := toInt16 map.sizeValue }

/-- The search for the m-gram at a place among the values of a key. It takes the first unused
value if it is not there, and counts it. -/
def countValue (map : NgramMap) (inp : List Token) (place : Nat) :
    List MapValue → Except Fault (List MapValue)
  | [] => .ok []
  | v :: values =>
    if v.valueIdx = 0 then
      .ok ({ valueIdx := place, valueNum := min 1 maxValueCount,
             nAccepted := toInt16 map.sizeValue } :: values)
    else do
      let found ← sameAt inp place v.valueIdx map.sizeValue
      if found then .ok ({ v with valueNum := min (v.valueNum + 1) maxValueCount } :: values)
      else
        let values ← countValue map inp place values
        .ok (v :: values)

/-- The loop over the places from `i` on where the n-gram may stand. -/
def countValues (map : NgramMap) (inp gram : List Token) :
    (n : Nat) → (i : Nat) → (values : List MapValue) → Except Fault (List MapValue)
  | 0, _, values => .ok values
  | n + 1, i, values => do
    let found ← matchAt inp i gram
    if found then do
      let values ← countValue map inp (i + map.sizeKey) values
      countValues map inp gram n (i + 1) values
    else countValues map inp gram n (i + 1) values

/-- The value with the largest count, the first one of them, and that count. -/
def slotMax (values : List MapValue) : Nat × Nat :=
  (values.zipIdx).foldl
    (fun best v => if best.2 < v.1.valueNum then (v.2, v.1.valueNum) else best) (0, 0)

/-- The values that are printed to the log. -/
def printValues (map : NgramMap) (inp : List Token) : List MapValue → Except Fault Unit
  | [] => .ok ()
  | v :: values =>
    if v.valueIdx ≠ 0 then do
      let _ ← copyFrom inp v.valueIdx map.sizeValue
      printValues map inp values
    else printValues map inp values

/-- The `m` tokens behind the match, at most as many as were accepted the last time. -/
def draftTokens (map : NgramMap) (inp : List Token) (matchPos : Nat) (values : List MapValue)
    (slot : Nat) : Except Fault (List Token) :=
  let nAccepted := (values.map MapValue.nAccepted).getD slot (-1)
  copyFrom inp (matchPos + map.sizeKey) (min (map.sizeValue : Int) nAccepted).toNat

/-- The part of `draft` behind the search of the key: its statistics and the draft. -/
def draftKey (map : NgramMap) (inp gram : List Token) (matchPos keyOffset : Nat) (key : MapKey) :
    Except Fault (NgramMap × List Token) :=
  let key := { key with keyNum := min (key.keyNum + 1) maxValueCount }
  let set := fun key => { map with keys := map.keys.set keyOffset key }
  if map.keyOnly then do
    let draft ← draftTokens map inp matchPos key.values 0
    .ok ({ set key with
      lastDraftCreated := true, lastDraftKeyIdx := keyOffset, lastDraftValueIdx := 0 }, draft)
  else if key.keyNum < map.minHits then .ok (set key, [])
  else do
    let values ← countValues map inp gram (matchPos + 1 - key.statIdx) key.statIdx key.values
    let key := { key with values, statIdx := matchPos }
    let (slot, maxOccur) := slotMax values
    let sumOccur := (values.map MapValue.valueNum).sum - maxOccur
    printValues map inp values
    if 0 < sumOccur ∧ maxOccur < 2 * sumOccur then .ok (set key, [])
    else
      let draft ← draftTokens map inp matchPos values slot
      .ok ({ set key with
        lastDraftCreated := true, lastDraftKeyIdx := keyOffset, lastDraftValueIdx := slot }, draft)

/-- The part of `draft` behind its early exits. -/
def draftSearch (map : NgramMap) (inp : List Token) (sampled : Token) :
    Except Fault (NgramMap × List Token) := do
  let gram ← keyTokens map inp sampled
  let matchPos ← findMatch map inp gram
  let map ← addHashes map inp
  if matchPos = 0 then .ok (map, [])
  else do
    let keyOffset ← findKey inp gram map.keys
    let keys :=
      if keyOffset = map.keys.length then map.keys ++ [newKey map matchPos] else map.keys
    draftKey { map with keys } inp gram matchPos keyOffset
      (keys.getD keyOffset (newKey map matchPos))

/-- `common_ngram_map_draft`. -/
def draft (map : NgramMap) (inp : List Token) (sampled : Token) :
    Except Fault (NgramMap × List Token) :=
  let map := { map with lastDraftCreated := false, lastDraftKeyIdx := 0, lastDraftValueIdx := 0 }
  if inp.length < 2 * map.sizeKey + map.sizeValue then .ok (map, [])
  else if 2 ^ 32 - 1 ≤ inp.length then .error .aborts
  else draftSearch { map with idxLastCheck := inp.length } inp sampled

/-! ### `common_ngram_map_accept` -/

/-- The value of the last draft gets the number of accepted tokens. -/
def accept (map : NgramMap) (nAccepted : Nat) : NgramMap :=
  if map.lastDraftCreated then
    { map with
      keys := map.keys.modify map.lastDraftKeyIdx fun key => { key with
        values := key.values.modify map.lastDraftValueIdx fun v =>
          { v with nAccepted := toInt16 nAccepted } } }
  else map

/-! ### Runs -/

/-- No read was outside the history and no subtraction wrapped. -/
def inRange {α : Type} : Except Fault α → Bool
  | .error .outOfRange => false
  | .error .wraps => false
  | _ => true

/-- The calls of the owner of the map. -/
inductive Call where
  | start (tokens : List Token)
  | draft (inp : List Token) (sampled : Token)
  | accept (nAccepted : Nat)

/-- The map and the history that the last `begin` was given. -/
structure Session where
  map : NgramMap
  history : List Token := []

namespace Session

/-- One call: a draft is given a history that extends the one of the last `begin`. `none` is a
call that does not come, or one that ends in a fault. -/
def step (s : Session) : Call → Option Session
  | .start tokens => some { map := s.map.start tokens, history := tokens }
  | .draft inp sampled =>
    if s.history <+: inp then
      match s.map.draft inp sampled with
      | .ok (map, _) => some { s with map }
      | .error _ => none
    else none
  | .accept nAccepted => some { s with map := s.map.accept nAccepted }

end Session

end NgramMap

end PxqLlama.Spec
