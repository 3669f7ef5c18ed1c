import Mathlib.Algebra.Group.Int.Defs
import PxqLlama.Lib.Runs
import PxqLlama.Server.Tokens

/-!
# `Sampling.ExpiringBias`: sampling parameters that change for a while

A request can change sampling parameters for some tokens: an entry is added to the parameters and
subtracted again, when its duration is over or when a phrase is met the second time. The entries
belong to states. A state is left for the next one at its exit word, and for any other one at its
jump word.

`common_expiring_logit_bias_apply` runs in front of every sample, so also in front of a repeated
one, and `common_expiring_logit_bias_accept` for every accepted token. The parameters are the
elements of a group, which stands for exact arithmetic: `addsubs` is what an entry adds to all of
them. What `apply` does to the logits is left out. Entering a state that does not exist gives
`none`.
-/

namespace PxqLlama.Sampling

open PxqLlama.Server (Bytes findFrom occurrences)

/-- A phrase of an entry, with its elements of `posi` and `addflags`. -/
structure ElbPhrase where
  phrase : Bytes
  posi : Nat := 0
  addflag : Bool := false
deriving DecidableEq

/-- `elb_entry`. One with `biases` is for logits, and does not change parameters. -/
structure ElbEntry (G : Type) where
  phrases : List ElbPhrase
  addsubs : G
  duration : Int
  hasBiases : Bool := false
deriving DecidableEq

/-- `elb_state`, with the entries of the element of `elb_params` that it was made from. -/
structure ElbStage (G : Type) where
  entries : List (ElbEntry G)
  exitword : Bytes := []
  jumpword : Bytes := []
  jumpIdx : Nat := 0
  delay : Nat := 0
  searchWordLen : Nat := 0
  countup : Nat := 0
deriving DecidableEq

/-- The part of `common_sampler` that the biases change. -/
structure ElbSampler (G : Type) where
  params : G
  stages : List (ElbStage G)
  elbIdx : Nat := 0
  elbSearchPos : Nat := 0
deriving DecidableEq

section
variable {G : Type} [AddCommGroup G]

/-! ### `common_expiring_logit_bias_apply` -/

/-- How often a phrase is in the text from where it was searched last. -/
def phraseCount (text : Bytes) (p : ElbPhrase) : Nat :=
  (occurrences text p.phrase (text.length + 1) p.posi).length

/-- The end of the duration, which is converted to `size_t`. -/
def DurationEnds (duration : Int) (countup : Nat) : Prop := (countup : Int) = duration % 2 ^ 64

instance (duration : Int) (countup : Nat) : Decidable (DurationEnds duration countup) :=
  inferInstanceAs (Decidable (_ = _))

/-- The loop body for a phrase of an entry. An empty phrase is bound by the duration only. -/
def applyPhrase (text : Bytes) (countup : Nat) (entry : ElbEntry G) (params : G) (p : ElbPhrase) :
    G × ElbPhrase :=
  if p.phrase = [] then
    if countup = 0 then (params + entry.addsubs, { p with addflag := true })
    else if DurationEnds entry.duration countup then
      (params - entry.addsubs, { p with addflag := false })
    else (params, p)
  else
    let posi := text.length + 1 - p.phrase.length
    if phraseCount text p % 2 = 1 then
      (if p.addflag then params - entry.addsubs else params + entry.addsubs,
        { p with posi := posi, addflag := ¬ p.addflag })
    else (params, { p with posi := posi })

/-- The loop over the phrases of an entry. -/
def applyPhrases (text : Bytes) (countup : Nat) (entry : ElbEntry G) :
    G → List ElbPhrase → G × List ElbPhrase
  | params, [] => (params, [])
  | params, p :: ps =>
    let done := applyPhrase text countup entry params p
    let rest := applyPhrases text countup entry done.1 ps
    (rest.1, done.2 :: rest.2)

/-- The loop over the entries of a state. -/
def applyEntries (text : Bytes) (countup : Nat) : G → List (ElbEntry G) → G × List (ElbEntry G)
  | params, [] => (params, [])
  | params, entry :: entries =>
    let done :=
      if entry.hasBiases then (params, entry)
      else
        let phrases := applyPhrases text countup entry params entry.phrases
        (phrases.1, { entry with phrases := phrases.2 })
    let rest := applyEntries text countup done.1 entries
    (rest.1, done.2 :: rest.2)

/-- `common_expiring_logit_bias_apply` for the generated text, if there is a current state. -/
def elbApply (s : ElbSampler G) (text : Bytes) : ElbSampler G :=
  match s.stages[s.elbIdx]? with
  | none => s
  | some stage =>
    let done := applyEntries text stage.countup s.params stage.entries
    { s with
      params := done.1
      stages := s.stages.set s.elbIdx { stage with entries := done.2 } }

/-! ### `common_expiring_logit_bias_accept` -/

/-- `string_is_found`. -/
def stringIsFound (window str : Bytes) : Option Nat :=
  if str = [] then none else findFrom window str 0

/-- The text that is searched for the words of a state. -/
def searchWindow (s : ElbSampler G) (text piece : Bytes) : Bytes :=
  text.drop (min text.length s.elbSearchPos) ++ piece

/-- The state that is entered with a token, and the place behind the word in the text. -/
def enteredState (s : ElbSampler G) (stage : ElbStage G) (text piece : Bytes) :
    Option (Nat × Nat) :=
  if stage.delay > stage.countup + 1 ∨ stage.searchWordLen = 0 then none
  else
    let window := searchWindow s text piece
    match stringIsFound window stage.jumpword with
    | some pos => some (stage.jumpIdx, pos + s.elbSearchPos + stage.jumpword.length)
    | none =>
      (stringIsFound window stage.exitword).map fun pos =>
        (s.elbIdx + 1, pos + s.elbSearchPos + stage.exitword.length)

/-- "undo current sampler bias". -/
def undoEntries (params : G) (entries : List (ElbEntry G)) : G :=
  entries.foldl (fun params entry =>
    entry.phrases.foldl (fun params p => if p.addflag then params - entry.addsubs else params)
      params) params

/-- "prepare next sampler bias". -/
def prepareEntry (pos : Nat) (entry : ElbEntry G) : ElbEntry G :=
  { entry with phrases := entry.phrases.map fun p => { p with posi := pos } }

/-- `common_expiring_logit_bias_accept` for the generated text, if there is one yet, and the piece
of the accepted token. -/
def elbAccept (s : ElbSampler G) (text : Option Bytes) (piece : Bytes) : Option (ElbSampler G) :=
  match text, s.stages[s.elbIdx]? with
  | some text, some stage =>
    let stages := s.stages.set s.elbIdx { stage with countup := stage.countup + 1 }
    match enteredState s stage text piece with
    | some (idx, pos) =>
      stages[idx]?.map fun next => { s with
        params := undoEntries s.params stage.entries
        stages := stages.set idx { next with entries := next.entries.map (prepareEntry pos) }
        elbIdx := idx
        elbSearchPos := pos + 1 }
    | none =>
      if stage.delay > stage.countup + 1 ∨ stage.searchWordLen = 0 then
        some { s with stages := stages }
      else
        some { s with
          stages := stages
          elbSearchPos := s.elbSearchPos
            + ((searchWindow s text piece).length + 1 - stage.searchWordLen) }
  | _, _ => some s

/-- A call of the sampler. -/
inductive ElbCall where
  | apply (text : Bytes)
  | accept (text : Option Bytes) (piece : Bytes)
deriving DecidableEq

def elbStep (s : ElbSampler G) : ElbCall → Option (ElbSampler G)
  | .apply text => some (elbApply s text)
  | .accept text piece => elbAccept s text piece

end

end PxqLlama.Sampling
