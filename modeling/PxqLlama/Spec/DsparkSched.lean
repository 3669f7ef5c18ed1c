import Mathlib.Data.UInt

/-!
# `Spec.DsparkSched`: the scheduler that pauses DSpark

Before a cycle the caller asks whether to skip it, and after a cycle it notes what came of it. The
notes of a window decide whether the next cycles are skipped: by a ladder for cycles without a
draft, by a rule for cycles that cost more than they save, and by a test at the end of the window.

Counters are `uint32_t` and wrap. Times are `double` and confidences `float`; how the two are
computed with is a parameter (`Floats`). Log texts are left out.
-/

namespace PxqLlama.Spec.DsparkSched

/-- The arithmetic of `double`, and the comparison of two `float`. -/
structure Floats (D F : Type) where
  zero : D
  thousand : D
  add : D → D → D
  mul : D → D → D
  div : D → D → D
  ofU32 : UInt32 → D
  lt : D → D → Bool
  isFinite : D → Bool
  leF : F → F → Bool

variable {D F : Type}

/-- The settings, latched by `llama_dspark_sched_init`, which replaces a window of zero. -/
structure Tunables (F : Type) where
  window : UInt32 := 4
  skipCycles : UInt32 := 2
  slowSkipCycles : UInt32 := 4
  minAvgMilli : UInt32 := 1500
  maxMsPerAcceptMilli : UInt32 := 28000
  maxExtraSavedRatioMilli : UInt32 := 1000
  breakEvenWindow : UInt32 := 0
  noDraftSkip : UInt32 := 3
  shortAcceptNoDraftSkip : UInt32 := 4
  coldLowConfSkip : UInt32 := 7
  tailMinTokens : UInt32 := 10
  coldLowConfThresh : F
  enabled : Bool := true
  window_pos : 0 < window

/-- `llama_dspark_sched`. -/
structure Sched (D F : Type) where
  tun : Tunables F
  -- the window
  cycles : UInt32 := 0
  accepted : UInt32 := 0
  noDraft : UInt32 := 0
  extraMs : D
  savedMs : D
  -- the lifetime
  skip : UInt32 := 0
  skippedCycle : Bool := false
  lifetimeAccepted : UInt32 := 0
  longAcceptSeen : Bool := false
  nSchedSkips : UInt32 := 0
  nTailSkips : UInt32 := 0

/-- What a cycle is noted with. -/
structure Note (D F : Type) where
  acceptedDrafts : UInt32
  noDraft : Bool
  extraMs : D
  lastTargetEvalMs : D
  conf0Valid : Bool
  conf0 : F

/-- `llama_dspark_sched_init`. -/
def schedInit (fp : Floats D F) (tun : Tunables F) : Sched D F :=
  { tun := tun, extraMs := fp.zero, savedMs := fp.zero }

/-- `sched_reset_window`. -/
def schedResetWindow (fp : Floats D F) (s : Sched D F) : Sched D F :=
  { s with cycles := 0, accepted := 0, noDraft := 0, extraMs := fp.zero, savedMs := fp.zero }

/-- `llama_dspark_sched_should_skip`. -/
def shouldSkip (s : Sched D F) : Bool × Sched D F :=
  if ¬ s.tun.enabled then (false, s)
  else if s.skip = 0 then (false, { s with skippedCycle := false })
  else
    (true, { s with
      skip := s.skip - 1
      skippedCycle := true
      nSchedSkips := s.nSchedSkips + 1 })

/-- `llama_dspark_sched_tail_skip`. -/
def tailSkip (s : Sched D F) (nRemaining : Int) : Bool × Sched D F :=
  if ¬ s.tun.enabled ∨ s.tun.tailMinTokens = 0 then (false, s)
  else if nRemaining < 0 then (false, s)
  else if (s.tun.tailMinTokens.toNat : Int) ≤ nRemaining then (false, s)
  else (true, { s with nTailSkips := s.nTailSkips + 1 })

/-- The counters take the cycle in. -/
def account (fp : Floats D F) (s : Sched D F) (n : Note D F) : Sched D F :=
  { s with
    cycles := s.cycles + 1
    accepted := s.accepted + n.acceptedDrafts
    lifetimeAccepted :=
      if n.acceptedDrafts ≠ 0 then
        if s.lifetimeAccepted ≤ 0xFFFFFFFF - n.acceptedDrafts then
          s.lifetimeAccepted + n.acceptedDrafts
        else 0xFFFFFFFF
      else s.lifetimeAccepted
    longAcceptSeen := s.longAcceptSeen || (n.acceptedDrafts ≠ 0 && n.acceptedDrafts > 2)
    noDraft := if n.noDraft then s.noDraft + 1 else s.noDraft
    extraMs :=
      if fp.lt fp.zero n.extraMs && fp.isFinite n.extraMs then fp.add s.extraMs n.extraMs
      else s.extraMs
    savedMs :=
      if n.acceptedDrafts ≠ 0 && fp.lt fp.zero n.lastTargetEvalMs &&
          fp.isFinite n.lastTargetEvalMs then
        fp.add s.savedMs (fp.mul n.lastTargetEvalMs (fp.ofU32 n.acceptedDrafts))
      else s.savedMs }

/-- The cycles that the ladder asks for. -/
def ladderSkip (fp : Floats D F) (s : Sched D F) (n : Note D F) : UInt32 :=
  if s.lifetimeAccepted ≠ 0 ∧ ¬ s.longAcceptSeen then
    max s.tun.noDraftSkip s.tun.shortAcceptNoDraftSkip
  else if s.lifetimeAccepted = 0 ∧ n.conf0Valid ∧ fp.leF n.conf0 s.tun.coldLowConfThresh then
    max s.tun.noDraftSkip s.tun.coldLowConfSkip
  else s.tun.noDraftSkip

/-- (1) the no-draft ladder. -/
def noDraftLadder (fp : Floats D F) (s : Sched D F) (n : Note D F) : Sched D F :=
  if n.noDraft ∧ s.tun.noDraftSkip ≠ 0 then { s with skip := max s.skip (ladderSkip fp s n) }
  else s

def measuredUnprofitable (fp : Floats D F) (s : Sched D F) : Bool :=
  s.tun.maxExtraSavedRatioMilli ≠ 0 && s.accepted ≠ 0 && fp.lt fp.zero s.savedMs &&
    fp.lt (fp.mul s.savedMs (fp.ofU32 s.tun.maxExtraSavedRatioMilli)) (fp.mul s.extraMs fp.thousand)

/-- (2) the break-even rule applies. -/
def breaksEven (fp : Floats D F) (s : Sched D F) : Bool :=
  s.tun.breakEvenWindow ≠ 0 && s.tun.breakEvenWindow ≤ s.cycles && measuredUnprofitable fp s

def lowAccept (s : Sched D F) : Bool :=
  s.accepted.toNat * 1000 / s.cycles.toNat < s.tun.minAvgMilli.toNat

def manyNoDraft (s : Sched D F) : Bool := s.cycles ≤ s.noDraft * 2

def slowAccept (fp : Floats D F) (s : Sched D F) : Bool :=
  let extraPerAccept := if s.accepted ≠ 0 then fp.div s.extraMs (fp.ofU32 s.accepted) else fp.zero
  s.tun.maxMsPerAcceptMilli ≠ 0 && s.accepted ≠ 0 &&
    fp.lt (fp.ofU32 s.tun.maxMsPerAcceptMilli) (fp.mul extraPerAccept fp.thousand)

/-- (3) the four-condition window test. -/
def windowTest (fp : Floats D F) (s : Sched D F) : Sched D F :=
  let long := manyNoDraft s || slowAccept fp s || measuredUnprofitable fp s
  if lowAccept s || long then
    { s with skip :=
        if long then max s.tun.skipCycles s.tun.slowSkipCycles else s.tun.skipCycles }
  else s

/-- `llama_dspark_sched_note`, and whether it has reset the window. -/
def noteReset (fp : Floats D F) (s : Sched D F) (n : Note D F) : Sched D F × Bool :=
  if ¬ s.tun.enabled then (s, false)
  else if s.skippedCycle then ({ s with skippedCycle := false }, false)
  else
    let s := noDraftLadder fp (account fp s n) n
    if breaksEven fp s then
      (schedResetWindow fp { s with skip := s.tun.slowSkipCycles }, true)
    else if s.cycles < s.tun.window then (s, false)
    else (schedResetWindow fp (windowTest fp s), true)

/-- `llama_dspark_sched_note`. -/
def note (fp : Floats D F) (s : Sched D F) (n : Note D F) : Sched D F := (noteReset fp s n).1

/-! ### Runs -/

inductive Call (D F : Type)
  | shouldSkip
  | tailSkip (nRemaining : Int)
  | note (n : Note D F)

def call (fp : Floats D F) (s : Sched D F) : Call D F → Sched D F
  | .shouldSkip => (shouldSkip s).2
  | .tailSkip nRemaining => (tailSkip s nRemaining).2
  | .note n => note fp s n

/-- The cycles of the window, after a call: a note is taken in when the scheduler is enabled and has
not skipped the cycle, and all are dropped when the window is reset. -/
def windowAfter (fp : Floats D F) (s : Sched D F) (window : List (Note D F)) :
    Call D F → List (Note D F)
  | .note n =>
    if ¬ s.tun.enabled ∨ s.skippedCycle then window
    else if (noteReset fp s n).2 then []
    else window ++ [n]
  | _ => window

/-- The scheduler after the calls, and the cycles of its window. -/
def run (fp : Floats D F) (tun : Tunables F) (calls : List (Call D F)) :
    Sched D F × List (Note D F) :=
  calls.foldl (fun r c => (call fp r.1 c, windowAfter fp r.1 r.2 c)) (schedInit fp tun, [])

end PxqLlama.Spec.DsparkSched
