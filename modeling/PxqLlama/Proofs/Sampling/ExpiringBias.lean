import Mathlib.Algebra.BigOperators.Group.List.Basic
import Mathlib.Tactic.Abel
import PxqLlama.Sampling.ExpiringBias

/-!
# `Proofs.Sampling.ExpiringBias`: what is added is what is flagged

A phrase that toggles keeps the parameters and its flag together. The duration and the change of a
state do not: they add, subtract or undo without a look at the flags. `CallOk` says when a call
finds the flags that it takes for granted:

* the first `apply` of a state finds no flag of a duration set, and one at its end finds it set, so
  neither is repeated before the next accepted token;
* a state that is entered has no flag set, so no entry of it was left on when it was left before.

Over runs of such calls the parameters are the ones of the request with what is flagged in the
current state (`runs_exact`).
-/

namespace PxqLlama.Sampling

open PxqLlama.Server (Bytes findFrom occurrences)

section
variable {G : Type} [AddCommGroup G]

/-- What the flag of a phrase stands for. -/
def amount (entry : ElbEntry G) (p : ElbPhrase) : G := if p.addflag then entry.addsubs else 0

/-- What the flags of an entry stand for. -/
def contribution (entry : ElbEntry G) : G := (entry.phrases.map (amount entry)).sum

/-- What the flags of entries stand for. -/
def total (entries : List (ElbEntry G)) : G := (entries.map contribution).sum

/-- The entries of a state. -/
def entriesAt (s : ElbSampler G) (idx : Nat) : List (ElbEntry G) :=
  (s.stages[idx]?.map ElbStage.entries).getD []

/-- `countup` of the current state. -/
def countupOf (s : ElbSampler G) : Nat := (s.stages[s.elbIdx]?.map ElbStage.countup).getD 0

/-- The state that an accepted token enters, if it enters one. -/
def entered (s : ElbSampler G) (text piece : Bytes) : Option Nat :=
  s.stages[s.elbIdx]?.bind fun stage => (enteredState s stage text piece).map Prod.fst

/-- The parameters are those of the request with the flagged entries of the current state, each
once. -/
structure Exact (base : G) (s : ElbSampler G) : Prop where
  params : s.params = base + total (entriesAt s s.elbIdx)
  once : ∀ entry ∈ entriesAt s s.elbIdx, entry.phrases.countP (·.addflag) ≤ 1

/-- A phrase whose duration begins is not on, and one whose duration ends is. -/
def PhraseOk (countup : Nat) (entry : ElbEntry G) (p : ElbPhrase) : Prop :=
  p.phrase = [] →
    if countup = 0 then p.addflag = false
    else DurationEnds entry.duration countup → p.addflag = true

instance (countup : Nat) (entry : ElbEntry G) (p : ElbPhrase) :
    Decidable (PhraseOk countup entry p) := inferInstanceAs (Decidable (_ → _))

/-- The flag that a phrase is given. -/
def nextFlag (text : Bytes) (countup : Nat) (entry : ElbEntry G) (p : ElbPhrase) : Bool :=
  if p.phrase = [] then
    if countup = 0 then true
    else if DurationEnds entry.duration countup then false else p.addflag
  else if phraseCount text p % 2 = 1 then !p.addflag else p.addflag

/-- The flags are as a call takes for granted. -/
def CallOk (s : ElbSampler G) : ElbCall → Prop
  | .apply text => ∀ entry ∈ entriesAt s s.elbIdx, entry.hasBiases = false →
      (∀ p ∈ entry.phrases, PhraseOk (countupOf s) entry p) ∧
        entry.phrases.countP (nextFlag text (countupOf s) entry) ≤ 1
  | .accept (some text) piece => ∀ idx ∈ entered s text piece, ∀ entry ∈ entriesAt s idx,
      ∀ p ∈ entry.phrases, p.addflag = false
  | .accept none _ => True

instance (s : ElbSampler G) : (call : ElbCall) → Decidable (CallOk s call)
  | .apply _ => inferInstanceAs (Decidable (∀ entry ∈ _, _ → _))
  | .accept (some _) _ => inferInstanceAs (Decidable (∀ idx ∈ _, ∀ entry ∈ _, ∀ p ∈ _, _))
  | .accept none _ => inferInstanceAs (Decidable True)

/-! ### `apply` -/

section
variable {countup : Nat} {entry : ElbEntry G} (text : Bytes)

/-- A phrase changes the parameters by what its flag changes. -/
theorem applyPhrase_exact {p : ElbPhrase} (hok : PhraseOk countup entry p) (params : G) :
    (applyPhrase text countup entry params p).1 + amount entry p
      = params + amount entry (applyPhrase text countup entry params p).2 := by
  rw [applyPhrase]
  split
  · rename_i hempty
    have hflag := hok hempty
    split
    · rename_i hzero
      rw [if_pos hzero] at hflag
      simp only [amount, hflag, Bool.false_eq_true, if_false, if_true, add_zero]
    · rename_i hpositive
      rw [if_neg hpositive] at hflag
      split
      · rename_i hends
        simp only [amount, hflag hends, Bool.false_eq_true, if_false, if_true, add_zero,
          sub_add_cancel]
      · rfl
  · split
    · cases hadd : p.addflag with
      | false => simp [amount, hadd]
      | true => simp [amount, hadd]
    · rfl

theorem applyPhrase_addflag (params : G) (p : ElbPhrase) :
    (applyPhrase text countup entry params p).2.addflag = nextFlag text countup entry p := by
  rw [applyPhrase, nextFlag]
  split
  · split
    · rfl
    · split <;> rfl
  · split
    · simp
    · rfl

/-- The phrases take off what they add, in the same amounts. -/
theorem applyPhrases_exact {ps : List ElbPhrase} (hok : ∀ p ∈ ps, PhraseOk countup entry p)
    (params : G) :
    (applyPhrases text countup entry params ps).1 + (ps.map (amount entry)).sum
      = params + ((applyPhrases text countup entry params ps).2.map (amount entry)).sum := by
  induction ps generalizing params with
  | nil => rfl
  | cons p ps ih =>
    have hfirst := applyPhrase_exact text (hok p List.mem_cons_self) params
    have hrest := ih (fun p hp => hok p (List.mem_cons_of_mem _ hp))
      (applyPhrase text countup entry params p).1
    rw [applyPhrases]
    simp only [List.map_cons, List.sum_cons]
    calc _ = (applyPhrases text countup entry (applyPhrase text countup entry params p).1 ps).1
          + (ps.map (amount entry)).sum + amount entry p := by abel
      _ = (applyPhrase text countup entry params p).1 + amount entry p
          + ((applyPhrases text countup entry (applyPhrase text countup entry params p).1 ps).2.map
            (amount entry)).sum := by rw [hrest]; abel
      _ = _ := by rw [hfirst]; abel

theorem countP_applyPhrases (ps : List ElbPhrase) (params : G) :
    (applyPhrases text countup entry params ps).2.countP (·.addflag)
      = ps.countP (nextFlag text countup entry) := by
  induction ps generalizing params with
  | nil => rfl
  | cons p ps ih =>
    rw [applyPhrases]
    simp only [List.countP_cons, ih, applyPhrase_addflag]

end

variable {entries : List (ElbEntry G)} {stage : ElbStage G}

/-- The entries of a state after `apply` give the parameters the difference of what is flagged. -/
theorem applyEntries_exact {text : Bytes} {countup : Nat}
    (hok : ∀ entry ∈ entries, entry.hasBiases = false →
      (∀ p ∈ entry.phrases, PhraseOk countup entry p) ∧
        entry.phrases.countP (nextFlag text countup entry) ≤ 1)
    (honce : ∀ entry ∈ entries, entry.phrases.countP (·.addflag) ≤ 1) (params : G) :
    (applyEntries text countup params entries).1 + total entries
        = params + total (applyEntries text countup params entries).2 ∧
      ∀ entry ∈ (applyEntries text countup params entries).2,
        entry.phrases.countP (·.addflag) ≤ 1 := by
  induction entries generalizing params with
  | nil => exact ⟨rfl, honce⟩
  | cons entry entries ih =>
    have hrest := ih (fun e he => hok e (List.mem_cons_of_mem _ he))
      (fun e he => honce e (List.mem_cons_of_mem _ he))
    rw [applyEntries]
    simp only [total, List.map_cons, List.sum_cons]
    cases hbiases : entry.hasBiases with
    | true =>
      rw [if_pos rfl]
      obtain ⟨hsum, hones⟩ := hrest params
      refine ⟨?_, ?_⟩
      · rw [total, total] at hsum
        rw [add_left_comm, hsum]
        exact add_left_comm _ _ _
      · intro e he
        rcases List.mem_cons.mp he with hfirst | hmem
        · rw [hfirst]
          exact honce entry List.mem_cons_self
        · exact hones e hmem
    | false =>
      rw [if_neg Bool.false_ne_true]
      obtain ⟨hphrases, hone⟩ := hok entry List.mem_cons_self hbiases
      have hfirst := applyPhrases_exact text hphrases params
      obtain ⟨hsum, hones⟩ := hrest (applyPhrases text countup entry params entry.phrases).1
      refine ⟨?_, ?_⟩
      · rw [total, total] at hsum
        rw [add_left_comm, hsum, ← add_assoc, add_comm (contribution entry)]
        show (applyPhrases text countup entry params entry.phrases).1
            + (entry.phrases.map (amount entry)).sum + _ = _
        rw [hfirst, add_assoc]
        rfl
      · intro e he
        rcases List.mem_cons.mp he with hfirst' | hmem
        · rw [hfirst']
          show (applyPhrases text countup entry params entry.phrases).2.countP (·.addflag) ≤ 1
          rw [countP_applyPhrases]
          exact hone
        · exact hones e hmem

/-! ### `accept` -/

theorem undoPhrases_eq (entry : ElbEntry G) (ps : List ElbPhrase) (params : G) :
    ps.foldl (fun params p => if p.addflag then params - entry.addsubs else params) params
      = params - (ps.map (amount entry)).sum := by
  induction ps generalizing params with
  | nil => exact (sub_zero params).symm
  | cons p ps ih =>
    rw [List.foldl_cons, ih, List.map_cons, List.sum_cons, amount]
    split
    · exact sub_sub _ _ _
    · rw [zero_add]

/-- What is undone is what is flagged. -/
theorem undoEntries_eq (entries : List (ElbEntry G)) (params : G) :
    undoEntries params entries = params - total entries := by
  induction entries generalizing params with
  | nil => exact (sub_zero params).symm
  | cons entry entries ih =>
    show undoEntries (entry.phrases.foldl _ params) entries = _
    rw [undoPhrases_eq, ih, total, total, List.map_cons, List.sum_cons, contribution]
    abel

theorem total_eq_zero (hoff : ∀ entry ∈ entries, ∀ p ∈ entry.phrases, p.addflag = false) :
    total entries = 0 := by
  refine List.sum_eq_zero fun x hx => ?_
  obtain ⟨entry, hentry, rfl⟩ := List.mem_map.mp hx
  refine List.sum_eq_zero fun y hy => ?_
  obtain ⟨p, hp, rfl⟩ := List.mem_map.mp hy
  rw [amount, hoff entry hentry p hp, if_neg Bool.false_ne_true]

variable {base : G} {s : ElbSampler G}

/-- Entries without a flag do not change the parameters. -/
theorem exact_of_off (hparams : s.params = base)
    (hoff : ∀ entry ∈ entriesAt s s.elbIdx, ∀ p ∈ entry.phrases, p.addflag = false) :
    Exact base s where
  params := by rw [hparams, total_eq_zero hoff, add_zero]
  once entry hentry := by
    rw [List.countP_eq_zero.mpr fun p hp => by simp [hoff entry hentry p hp]]
    exact Nat.zero_le 1

omit [AddCommGroup G] in
/-- The preparation of a state moves its search positions only. -/
theorem prepareEntry_off {pos : Nat}
    (hoff : ∀ entry ∈ entries, ∀ p ∈ entry.phrases, p.addflag = false) :
    ∀ entry ∈ entries.map (prepareEntry pos), ∀ p ∈ entry.phrases, p.addflag = false := by
  intro entry hentry p hp
  obtain ⟨entry', hentry', rfl⟩ := List.mem_map.mp hentry
  obtain ⟨p', hp', rfl⟩ := List.mem_map.mp hp
  exact hoff entry' hentry' p' hp'

omit [AddCommGroup G] in
theorem entriesAt_of_getElem? {idx : Nat} (h : s.stages[idx]? = some stage) :
    entriesAt s idx = stage.entries := by
  rw [entriesAt, h]
  rfl

omit [AddCommGroup G] in
/-- The count of a state is none of its entries. -/
theorem entries_countup (n : Nat) (h : s.stages[s.elbIdx]? = some stage) (idx : Nat) :
    ((s.stages.set s.elbIdx { stage with countup := n })[idx]?.map ElbStage.entries).getD []
      = entriesAt s idx := by
  rw [List.getElem?_set, entriesAt]
  split
  · rename_i heq
    subst heq
    have hlt : s.elbIdx < s.stages.length := (List.getElem?_eq_some_iff.mp h).1
    rw [if_pos hlt, h]
    rfl
  · rfl

/-! ### Runs -/

/-- Applying the biases leaves the base with just the active ones added. -/
theorem elbApply_exact {text : Bytes} (hexact : Exact base s) (hok : CallOk s (.apply text)) :
    Exact base (elbApply s text) := by
  cases hstage : s.stages[s.elbIdx]? with
  | none =>
    rw [elbApply, hstage]
    exact hexact
  | some stage =>
    have hentries := entriesAt_of_getElem? hstage
    have hcountup : countupOf s = stage.countup := by rw [countupOf, hstage]; rfl
    obtain ⟨hparams, honce⟩ := hexact
    unfold CallOk at hok
    rw [hentries] at hparams honce hok
    rw [hcountup] at hok
    obtain ⟨hsum, hones⟩ := applyEntries_exact hok honce s.params
    have hlt : s.elbIdx < s.stages.length := (List.getElem?_eq_some_iff.mp hstage).1
    have hafter : entriesAt (elbApply s text) s.elbIdx
        = (applyEntries text stage.countup s.params stage.entries).2 := by
      rw [elbApply, hstage, entriesAt]
      show ((s.stages.set s.elbIdx _)[s.elbIdx]?.map ElbStage.entries).getD [] = _
      rw [List.getElem?_set_self hlt]
      rfl
    have hidx : (elbApply s text).elbIdx = s.elbIdx := by rw [elbApply, hstage]
    have hnew : (elbApply s text).params
        = (applyEntries text stage.countup s.params stage.entries).1 := by rw [elbApply, hstage]
    refine ⟨?_, ?_⟩
    · rw [hidx, hafter, hnew]
      -- the parameters had what was flagged before, which is in what `hsum` adds
      rw [hparams] at hsum ⊢
      have hcancel := congrArg (· - total stage.entries) hsum
      simp only [add_sub_cancel_right] at hcancel
      rw [hcancel]
      abel
    · rw [hidx, hafter]
      exact hones

/-- Accepting a token takes off what expires with it, and nothing else. -/
theorem elbAccept_exact {s' : ElbSampler G} {text : Option Bytes} {piece : Bytes}
    (hexact : Exact base s) (hok : CallOk s (.accept text piece))
    (hstep : elbAccept s text piece = some s') : Exact base s' := by
  cases text with
  | none =>
    cases hstep
    exact hexact
  | some text =>
    cases hstage : s.stages[s.elbIdx]? with
    | none =>
      simp only [elbAccept, hstage] at hstep
      cases hstep
      exact hexact
    | some stage =>
      have hkept := entries_countup (stage.countup + 1) hstage
      simp only [elbAccept, hstage] at hstep
      cases hentered : enteredState s stage text piece with
      | none =>
        -- the state stays, with a count more
        rw [hentered] at hstep
        simp only at hstep
        have hsame : ∀ pos, Exact base { s with
            stages := s.stages.set s.elbIdx { stage with countup := stage.countup + 1 }
            elbSearchPos := pos } := by
          intro pos
          refine ⟨?_, ?_⟩
          · rw [entriesAt]
            show s.params = base + total (((s.stages.set _ _)[s.elbIdx]?.map _).getD [])
            rw [hkept]
            exact hexact.params
          · rw [entriesAt]
            show ∀ entry ∈ ((s.stages.set _ _)[s.elbIdx]?.map _).getD [], _
            rw [hkept]
            exact hexact.once
        split at hstep
        · cases hstep
          exact hsame s.elbSearchPos
        · cases hstep
          exact hsame _
      | some next =>
        obtain ⟨idx, pos⟩ := next
        rw [hentered] at hstep
        simp only [Option.map_eq_some_iff] at hstep
        obtain ⟨next, hnext, rfl⟩ := hstep
        have hoff : ∀ entry ∈ entriesAt s idx, ∀ p ∈ entry.phrases, p.addflag = false := by
          refine hok idx ?_
          rw [entered, hstage]
          show ((enteredState s stage text piece).map Prod.fst) = some idx
          rw [hentered]
          rfl
        have hnextEntries : next.entries = entriesAt s idx := by
          rw [← hkept idx, hnext]
          rfl
        refine exact_of_off ?_ ?_
        · show undoEntries s.params stage.entries = base
          rw [undoEntries_eq, hexact.params, entriesAt_of_getElem? hstage, add_sub_cancel_right]
        · rw [entriesAt]
          show ∀ entry ∈ ((List.set _ idx _)[idx]?.map ElbStage.entries).getD [], _
          have hlt := (List.getElem?_eq_some_iff.mp hnext).1
          rw [List.getElem?_set_self hlt]
          show ∀ entry ∈ next.entries.map (prepareEntry pos), _
          rw [hnextEntries]
          exact prepareEntry_off hoff

theorem elbStep_exact {s' : ElbSampler G} {call : ElbCall} (hexact : Exact base s)
    (hok : CallOk s call) (hstep : elbStep s call = some s') : Exact base s' := by
  cases call with
  | apply text =>
    cases hstep
    exact elbApply_exact hexact hok
  | accept text piece => exact elbAccept_exact hexact hok hstep

/-- A sampler as it is made for a request: no entry is on. -/
structure Fresh (s : ElbSampler G) : Prop where
  off : ∀ stage ∈ s.stages, ∀ entry ∈ stage.entries, ∀ p ∈ entry.phrases, p.addflag = false

theorem Fresh.exact (h : Fresh s) : Exact s.params s := by
  refine exact_of_off rfl fun entry hentry => ?_
  cases hstage : s.stages[s.elbIdx]? with
  | none =>
    rw [entriesAt, hstage] at hentry
    cases hentry
  | some stage =>
    rw [entriesAt_of_getElem? hstage] at hentry
    exact h.off stage (List.mem_of_getElem? hstage) entry hentry

end

/-- Two states: an entry of the first is on for two tokens and one of the second for one, and the
first is left at a line break. -/
def sampleBiases : ElbSampler ℤ where
  params := 10
  stages := [
    { entries := [{ phrases := [{ phrase := [] }], addsubs := 5, duration := 2 },
        { phrases := [{ phrase := [60] }], addsubs := -3, duration := 0 }],
      exitword := [10], searchWordLen := 1 },
    { entries := [{ phrases := [{ phrase := [] }], addsubs := 2, duration := 1 }] }]

/-- A word, a phrase and the exit word. -/
def sampleCalls : List ElbCall := [.apply [], .accept (some []) [97], .apply [97],
  .accept (some [97]) [60], .apply [97, 60], .accept (some [97, 60]) [10], .apply [97, 60, 10]]

theorem sampleBiases_fresh : Fresh sampleBiases := ⟨by decide⟩

end PxqLlama.Sampling
