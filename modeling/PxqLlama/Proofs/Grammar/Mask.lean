import PxqLlama.Lib.Fuel
import PxqLlama.Grammar.Mask
import PxqLlama.Proofs.Grammar.LeftRecursion

/-!
# `Proofs.Grammar.Mask`: what is masked and what is accepted

A stack walks over characters (`Walk`), and takes a token by its number or by walking over its piece
(`Takes`). `acceptToken` leaves the stacks to which one of the stacks goes when it takes the token
(`acceptToken_settles`), and `sampleImpl` leaves a token that one of the stacks admits
(`sampleImpl_settles`, `Admits`).

A stack that has walked over a part of a piece and stands before a token element admits every token
that the element matches, but it does not take it. And where a piece ends in the middle of a
character, a negated character element does not admit it when one completion is excluded, and a token
element does not when the piece has nothing before that. `maskAgrees_iff` says that these are the
only differences.
-/

namespace PxqLlama.Grammar

variable {rules : Rules}

/-! ### Walking -/

/-- The expansions of a stack that `advanceStack` returns. -/
def Leads (rules : Rules) (s t : Stack) : Prop :=
  Reaches (visitStack rules) s t ∧ visitStack rules t = .leaf

/-- The stack has a character element on top. -/
def CharTop (rules : Rules) (s : Stack) : Prop :=
  ∃ p rest, s = p :: rest ∧ isTokenElement (elementAt rules p) = false

/-- The stack has a token element on top, which matches. -/
def TokenTop (rules : Rules) (id : Nat) (s : Stack) : Prop :=
  ∃ p rest, s = p :: rest ∧ isTokenElement (elementAt rules p) = true ∧
    matchToken rules p id = true

/-- The character element on top matches, and the stack goes on behind it. -/
def CharStep (rules : Rules) (c : Nat) (s t : Stack) : Prop :=
  ∃ p rest, s = p :: rest ∧ isTokenElement (elementAt rules p) = false ∧
    (matchChar rules p c).1 = true ∧ Leads rules (pushPos rules (matchChar rules p c).2 rest) t

variable {p : Pos} {rest s : Stack} {tok : Candidate}

theorem charStep_cons {rules : Rules} {c : Nat} {t : Stack} :
    CharStep rules c (p :: rest) t ↔
      isTokenElement (elementAt rules p) = false ∧ (matchChar rules p c).1 = true ∧
        Leads rules (pushPos rules (matchChar rules p c).2 rest) t := by
  constructor
  · rintro ⟨p', rest', hcons, h⟩
    cases hcons
    exact h
  · exact fun h => ⟨p, rest, rfl, h⟩

/-- The token element on top matches, and the stack goes on behind it. -/
def TokenStep (rules : Rules) (id : Nat) (s t : Stack) : Prop :=
  ∃ p rest, s = p :: rest ∧ isTokenElement (elementAt rules p) = true ∧
    matchToken rules p id = true ∧ Leads rules (pushPos rules p.next rest) t

/-- The stack goes over characters. -/
def Walk (rules : Rules) : List Nat → Stack → Stack → Prop
  | [], s, t => s = t
  | c :: cs, s, t => ∃ s', CharStep rules c s s' ∧ Walk rules cs s' t

/-- The stack takes a token with these code points. -/
def Takes (rules : Rules) (id : Nat) (codePoints : List Nat) (s t : Stack) : Prop :=
  TokenStep rules id s t ∨ CharTop rules s ∧ Walk rules codePoints s t

/-- Some continuation of the partial character, or none is needed. -/
def AdmitsPartial (rules : Rules) (partialUtf8 : PartialUtf8) (s : Stack) : Prop :=
  partialUtf8.nRemain = 0 ∨ ∃ p rest, s = p :: rest ∧ isTokenElement (elementAt rules p) = false ∧
    matchPartialChar rules p partialUtf8 = true

/-- The stack does not reject a token of which these code points are left. -/
def Admits (rules : Rules) (id : Nat) (partialUtf8 : PartialUtf8) : List Nat → Stack → Prop
  | [], s => AdmitsPartial rules partialUtf8 s
  | c :: cs, s => TokenTop rules id s ∨ ∃ t, CharStep rules c s t ∧ Admits rules id partialUtf8 cs t

/-- A stack that came out of `advanceStack`. -/
structure Ready (rules : Rules) (s : Stack) : Prop where
  valid : ValidStack rules s
  leaf : visitStack rules s = .leaf

/-- Rules without left recursion, hidden or not. -/
structure Regular (rules : Rules) : Prop where
  wellFormed : WellFormed rules
  not_leftRecursive : ∀ r, ¬ LeftRecursive (productions rules) r

theorem Regular.not_grows (hreg : Regular rules) (r : Fin rules.length) :
    ¬ Grows (productions rules) r :=
  fun h => hreg.not_leftRecursive r h.leftRecursive

/-! ### Advancing -/

section

variable (hreg : Regular rules)

include hreg

theorem Leads.ready {t : Stack} (h : Leads rules s t) (hs : ValidStack rules s) : Ready rules t :=
  ⟨hs.reaches hreg.wellFormed h.1, h.2⟩

theorem exists_leads (hs : ValidStack rules s) : ∃ t, Leads rules s t :=
  (exists_leaf_iff hreg.wellFormed hs).mpr
    (live_of_not_leftRecursive hreg.not_leftRecursive productions_ne_nil _)

theorem advanceStack_settles (hs : ValidStack rules s) (newStacks : Stacks) :
    ∃ out, (∀ t, t ∈ out ↔ t ∈ newStacks ∨ Leads rules s t) ∧
      Settles (fun n => advanceStack rules n s newStacks) out := by
  obtain ⟨fuel, out, hout⟩ := advanceStack_terminates hreg.wellFormed hs hreg.not_grows newStacks
  exact ⟨out, fun t => mem_advanceStack hout, .of_mono hout fun _ h => explore_mono h⟩

/-- Behind the element on top of a stack that came out of `advanceStack`. -/
theorem Ready.behind_char (h : Ready rules (p :: rest)) (c : Nat) :
    ValidStack rules (pushPos rules (matchChar rules p c).2 rest) :=
  h.valid.tail.push (startsElement_behind hreg.wellFormed c (h.valid p List.mem_cons_self).1)

theorem Ready.behind_token (h : Ready rules (p :: rest))
    (htoken : isTokenElement (elementAt rules p) = true) :
    ValidStack rules (pushPos rules p.next rest) :=
  h.valid.tail.push (startsElement_next hreg.wellFormed (.inr htoken))

theorem CharStep.ready {c : Nat} {t : Stack} (h : CharStep rules c s t) (hs : Ready rules s) :
    Ready rules t := by
  obtain ⟨p, rest, rfl, -, -, hleads⟩ := h
  exact hleads.ready hreg (hs.behind_char hreg c)

theorem Walk.ready {cs : List Nat} {t : Stack} (h : Walk rules cs s t) (hs : Ready rules s) :
    Ready rules t := by
  induction cs generalizing s with
  | nil => exact (show s = t from h) ▸ hs
  | cons c cs ih =>
    obtain ⟨s', hstep, hwalk⟩ := h
    exact ih hwalk (hstep.ready hreg hs)

/-! ### Accepting -/

/-- With enough fuel a character leaves just the stacks that it leads to. -/
theorem acceptChr_settles (hs : Ready rules s) (c : Nat) (newStacks : Stacks) :
    ∃ out, (∀ t, t ∈ out ↔ t ∈ newStacks ∨ CharStep rules c s t) ∧
      Settles (fun n => acceptChr rules n s c newStacks) out := by
  cases s with
  | nil =>
    refine ⟨newStacks, fun t => ⟨.inl, fun h => h.resolve_right ?_⟩, settles_pure _⟩
    rintro ⟨p, rest, hcons, -⟩
    cases hcons
  | cons p rest =>
    simp only [acceptChr, charStep_cons]
    by_cases htoken : isTokenElement (elementAt rules p) = true
    · simp only [htoken, if_true]
      exact ⟨newStacks, by simp, settles_pure _⟩
    · simp only [Bool.not_eq_true] at htoken
      by_cases hmatch : (matchChar rules p c).1 = true
      · simp only [htoken, hmatch, if_true, true_and]
        exact advanceStack_settles hreg (hs.behind_char hreg c) newStacks
      · simp only [htoken, hmatch]
        exact ⟨newStacks, by simp, settles_pure _⟩

theorem acceptChrAll_settles {current : Stacks} (hs : ∀ s ∈ current, Ready rules s) (c : Nat) :
    ∃ out, (∀ t, t ∈ out ↔ ∃ s ∈ current, CharStep rules c s t) ∧
      Settles (fun n => acceptChrAll rules n current c) out := by
  obtain ⟨out, hout, hsettles⟩ := exists_settles_foldlM
    (f := fun n newStacks stack => acceptChr rules n stack c newStacks)
    (fun done out => ∀ t, t ∈ out ↔ ∃ s ∈ done, CharStep rules c s t)
    (fun done s rest hcurrent acc hacc => by
      obtain ⟨out, hout, hsettles⟩ := acceptChr_settles hreg (hs s (by rw [hcurrent]; simp)) c acc
      refine ⟨out, fun t => ?_, hsettles⟩
      rw [hout, hacc]
      simp [or_and_right, exists_or])
    (l := current) (b := []) (by simp)
  exact ⟨out, hout, hsettles⟩

/-- All characters of a piece on all stacks. -/
theorem acceptChars_settles (cs : List Nat) {current : Stacks}
    (hs : ∀ s ∈ current, Ready rules s) :
    ∃ out, (∀ t, t ∈ out ↔ ∃ s ∈ current, Walk rules cs s t) ∧
      Settles (fun n => cs.foldlM (acceptChrAll rules n) current) out := by
  induction cs generalizing current with
  | nil => exact ⟨current, by simp [Walk], settles_pure current⟩
  | cons c cs ih =>
    obtain ⟨next, hnext, hround⟩ := acceptChrAll_settles hreg hs c
    have hready : ∀ s ∈ next, Ready rules s := by
      intro t ht
      obtain ⟨s, hmem, hstep⟩ := (hnext t).mp ht
      exact hstep.ready hreg (hs s hmem)
    obtain ⟨out, hout, hrest⟩ := ih hready
    refine ⟨out, fun t => ?_, hround.bind hrest⟩
    rw [hout]
    constructor
    · rintro ⟨s', hs', hwalk⟩
      obtain ⟨s, hmem, hstep⟩ := (hnext s').mp hs'
      exact ⟨s, hmem, s', hstep, hwalk⟩
    · rintro ⟨s, hmem, s', hstep, hwalk⟩
      exact ⟨s', (hnext s').mpr ⟨s, hmem, hstep⟩, hwalk⟩

end

theorem mem_foldl_addNew {new : Stacks} {acc : Stacks} {t : Stack} :
    t ∈ new.foldl addNew acc ↔ t ∈ acc ∨ t ∈ new := by
  induction new generalizing acc with
  | nil => simp
  | cons s new ih =>
    rw [List.foldl_cons, ih, mem_addNew, List.mem_cons]
    exact or_assoc

section

variable (hreg : Regular rules)

include hreg

/-- The same of a token, character by character. -/
theorem acceptOnStack_settles (hs : Ready rules s) (id : Nat) (codePoints : List Nat)
    (stacksNew : Stacks) :
    ∃ out, (∀ t, t ∈ out ↔ t ∈ stacksNew ∨ Takes rules id codePoints s t) ∧
      Settles (fun n => acceptOnStack rules n id codePoints stacksNew s) out := by
  cases s with
  | nil =>
    refine ⟨stacksNew, fun t => ⟨.inl, fun h => h.resolve_right ?_⟩, settles_pure _⟩
    rintro (⟨p, rest, hcons, -⟩ | ⟨⟨p, rest, hcons, -⟩, -⟩)
    · cases hcons
    · cases hcons
  | cons p rest =>
    have htakes : ∀ t, Takes rules id codePoints (p :: rest) t ↔
        isTokenElement (elementAt rules p) = true ∧ matchToken rules p id = true ∧
          Leads rules (pushPos rules p.next rest) t ∨
        isTokenElement (elementAt rules p) = false ∧ Walk rules codePoints (p :: rest) t := by
      intro t
      constructor
      · rintro (⟨p', rest', hcons, h⟩ | ⟨⟨p', rest', hcons, h⟩, hwalk⟩)
        · cases hcons
          exact .inl h
        · cases hcons
          exact .inr ⟨h, hwalk⟩
      · rintro (h | ⟨h, hwalk⟩)
        · exact .inl ⟨p, rest, rfl, h⟩
        · exact .inr ⟨⟨p, rest, rfl, h⟩, hwalk⟩
    simp only [acceptOnStack, htakes]
    by_cases htoken : isTokenElement (elementAt rules p) = true
    · by_cases hmatch : matchToken rules p id = true
      · simp only [htoken, hmatch, if_true, true_and, reduceCtorEq, false_and, or_false]
        exact advanceStack_settles hreg (hs.behind_token hreg htoken) stacksNew
      · simp only [htoken, hmatch, if_true, true_and, false_and, reduceCtorEq, or_false]
        exact ⟨stacksNew, fun _ => Iff.rfl, settles_pure _⟩
    · simp only [Bool.not_eq_true] at htoken
      obtain ⟨surviving, hsurviving, hsettles⟩ :=
        @acceptChars_settles rules hreg codePoints [p :: rest] (by simpa using hs)
      refine ⟨surviving.foldl addNew stacksNew, fun t => ?_, ?_⟩
      · rw [mem_foldl_addNew, hsurviving]
        simp [htoken]
      · simp only [htoken, reduceCtorEq, if_false]
        exact hsettles.map fun surviving => surviving.foldl addNew stacksNew

/-- `acceptToken` leaves the stacks to which one of the stacks goes when it takes the token. -/
theorem acceptToken_settles {grammar : LlamaGrammar} (hrules : grammar.rules = rules)
    (hs : ∀ s ∈ grammar.grammarStacks, Ready rules s) (id : Nat) (piece : List UInt8) :
    ∃ accepted : LlamaGrammar, accepted.rules = rules ∧
      accepted.partialUtf8 = (decodeUtf8 piece grammar.partialUtf8).2 ∧
      (∀ t, t ∈ accepted.grammarStacks ↔ ∃ s ∈ grammar.grammarStacks,
        Takes rules id (decodeUtf8 piece grammar.partialUtf8).1.dropLast s t) ∧
      Settles (fun n => acceptToken n grammar id piece) accepted := by
  subst hrules
  generalize hcs : (decodeUtf8 piece grammar.partialUtf8).1.dropLast = cs
  obtain ⟨out, hout, hsettles⟩ := exists_settles_foldlM
    (f := fun n stacksNew stack => acceptOnStack grammar.rules n id cs stacksNew stack)
    (fun done out => ∀ t, t ∈ out ↔ ∃ s ∈ done, Takes grammar.rules id cs s t)
    (fun done s rest hcurrent acc hacc => by
      obtain ⟨out, hout, hsettles⟩ :=
        acceptOnStack_settles hreg (hs s (by rw [hcurrent]; simp)) id cs acc
      refine ⟨out, fun t => ?_, hsettles⟩
      rw [hout, hacc]
      simp [or_and_right, exists_or])
    (l := grammar.grammarStacks) (b := []) (by simp)
  refine ⟨{ grammar with
    grammarStacks := out
    partialUtf8 := (decodeUtf8 piece grammar.partialUtf8).2 }, rfl, rfl, hout, ?_⟩
  have hmap := hsettles.map fun stacksNew : Stacks => ({ grammar with
    grammarStacks := stacksNew
    partialUtf8 := (decodeUtf8 piece grammar.partialUtf8).2 } : LlamaGrammar)
  unfold acceptToken
  simp only [hcs]
  exact hmap

end

/-! ### Masking -/

/-- The code points that are left of a candidate, up to the zero. -/
def Candidate.remaining (tok : Candidate) : List Nat :=
  (tok.codePoints.drop tok.pos).takeWhile (· ≠ 0)

theorem Candidate.remaining_nil (h : tok.codePoint = 0) : tok.remaining = [] := by
  unfold codePoint at h
  unfold remaining
  by_cases hlt : tok.pos < tok.codePoints.length
  · rw [List.getD_eq_getElem _ _ hlt] at h
    rw [List.drop_eq_getElem_cons hlt, List.takeWhile_cons_of_neg (by simp [h])]
  · rw [List.drop_eq_nil_of_le (Nat.le_of_not_lt hlt)]
    rfl

theorem Candidate.remaining_cons (h : tok.codePoint ≠ 0) :
    tok.remaining = tok.codePoint :: tok.next.remaining := by
  have hlt : tok.pos < tok.codePoints.length := by
    by_contra hle
    exact h (List.getD_eq_default _ _ (Nat.le_of_not_lt hle))
  unfold codePoint at h ⊢
  unfold remaining
  rw [List.getD_eq_getElem _ _ hlt] at h ⊢
  rw [List.drop_eq_getElem_cons hlt, List.takeWhile_cons_of_pos (by simpa using h)]
  rfl

theorem Candidate.back_next (tok : Candidate) : tok.next.back = tok := rfl

/-- The stack does not reject the candidate. -/
def AdmitsCandidate (rules : Rules) (tok : Candidate) (s : Stack) : Prop :=
  Admits rules tok.id tok.partialUtf8 tok.remaining s

theorem admits_nil_iff : AdmitsCandidate rules tok [] ↔
    tok.codePoint = 0 ∧ tok.partialUtf8.nRemain = 0 := by
  unfold AdmitsCandidate
  by_cases hzero : tok.codePoint = 0
  · rw [Candidate.remaining_nil hzero]
    simp [Admits, AdmitsPartial, hzero]
  · rw [Candidate.remaining_cons hzero]
    simp [Admits, TokenTop, CharStep, hzero]

theorem admits_token_iff (htoken : isTokenElement (elementAt rules p) = true) :
    AdmitsCandidate rules tok (p :: rest) ↔
      if tok.codePoint = 0 then tok.partialUtf8.nRemain = 0
      else matchToken rules p tok.id = true := by
  unfold AdmitsCandidate
  by_cases hzero : tok.codePoint = 0
  · rw [Candidate.remaining_nil hzero]
    simp [Admits, AdmitsPartial, hzero, htoken]
  · rw [Candidate.remaining_cons hzero]
    simp [Admits, TokenTop, CharStep, hzero, htoken]

/-- A stack on a character element admits a candidate by its first character. -/
theorem admits_char_iff (hchar : isTokenElement (elementAt rules p) = false) :
    AdmitsCandidate rules tok (p :: rest) ↔
      if tok.codePoint = 0 then
        tok.partialUtf8.nRemain = 0 ∨ matchPartialChar rules p tok.partialUtf8 = true
      else (matchChar rules p tok.codePoint).1 = true ∧
        ∃ t, Leads rules (pushPos rules (matchChar rules p 0).2 rest) t ∧
          AdmitsCandidate rules tok.next t := by
  unfold AdmitsCandidate
  by_cases hzero : tok.codePoint = 0
  · rw [Candidate.remaining_nil hzero]
    simp [Admits, AdmitsPartial, hzero, hchar]
  · rw [Candidate.remaining_cons hzero, if_neg hzero]
    constructor
    · rintro (⟨p', rest', hcons, htoken, -⟩ | ⟨t, ⟨p', rest', hcons, -, hmatch, hleads⟩, hadmits⟩)
      · cases hcons
        rw [hchar] at htoken
        cases htoken
      · cases hcons
        exact ⟨hmatch, t, hleads, hadmits⟩
    · rintro ⟨hmatch, t, hleads, hadmits⟩
      exact .inr ⟨t, ⟨p, rest, rfl, hchar, hmatch, hleads⟩, hadmits⟩

section

variable (hreg : Regular rules)

include hreg

/-- One stack keeps the candidates that it does not admit. -/
theorem rejectForStack_settles {s : Stack} (hs : Ready rules s)
    {rejectNext : Nat → Stacks → List Candidate → Option (List Candidate)}
    {candidates : List Candidate}
    (hnext : ∀ next : Stacks, next ≠ [] → (∀ t ∈ next, Ready rules t) → ∀ toks : List Candidate,
      (∀ tok ∈ toks, ∃ tok' ∈ candidates, tok'.codePoint ≠ 0 ∧ tok = tok'.next) →
      ∃ rejects, (∀ tok, tok ∈ rejects ↔ tok ∈ toks ∧ ∀ t ∈ next, ¬ AdmitsCandidate rules tok t) ∧
        Settles (fun n => rejectNext n next toks) rejects) :
    ∃ rejects, (∀ tok, tok ∈ rejects ↔ tok ∈ candidates ∧ ¬ AdmitsCandidate rules tok s) ∧
      Settles (fun n => rejectForStack rules n (rejectNext n) s candidates) rejects := by
  cases s with
  | nil =>
    refine ⟨_, fun tok => ?_, settles_pure _⟩
    rw [List.mem_filter, admits_nil_iff]
    simp [or_iff_not_imp_left]
  | cons p rest =>
    by_cases htoken : isTokenElement (elementAt rules p) = true
    · simp only [rejectForStack, if_pos htoken]
      refine ⟨_, fun tok => ?_, settles_pure _⟩
      rw [List.mem_filter, admits_token_iff htoken]
      split <;> simp
    · have hchar : isTokenElement (elementAt rules p) = false := by simpa using htoken
      simp only [rejectForStack, if_neg htoken]
      obtain ⟨next, hmem, hadvance⟩ := advanceStack_settles hreg (hs.behind_char hreg 0) []
      have hleads : ∀ t, t ∈ next ↔ Leads rules (pushPos rules (matchChar rules p 0).2 rest) t := by
        intro t
        rw [hmem]
        simp
      obtain ⟨t₀, ht₀⟩ := exists_leads hreg (hs.behind_char hreg 0)
      obtain ⟨nextRejects, hrejects, hsettles⟩ := hnext next
        (List.ne_nil_of_mem ((hleads t₀).mpr ht₀))
        (fun t ht => ((hleads t).mp ht).ready hreg (hs.behind_char hreg 0))
        ((candidates.filter fun tok =>
          tok.codePoint ≠ 0 && (matchChar rules p tok.codePoint).1).map Candidate.next)
        (fun tok htok => by
          obtain ⟨tok', htok', rfl⟩ := List.mem_map.mp htok
          obtain ⟨hmem', hcond⟩ := List.mem_filter.mp htok'
          simp only [Bool.and_eq_true, decide_eq_true_eq] at hcond
          exact ⟨tok', hmem', hcond.1, rfl⟩)
      refine ⟨_, fun tok => ?_, hadvance.bind (hsettles.bind (settles_pure _))⟩
      have hback : tok ∈ nextRejects.map Candidate.back ↔ tok.next ∈ nextRejects := by
        constructor
        · intro h
          obtain ⟨tok', htok', rfl⟩ := List.mem_map.mp h
          obtain ⟨tok'', -, rfl⟩ := List.mem_map.mp ((hrejects tok').mp htok').1
          exact htok'
        · intro h
          exact List.mem_map.mpr ⟨tok.next, h, Candidate.back_next tok⟩
      have hinj : tok.next ∈ (candidates.filter fun tok =>
          tok.codePoint ≠ 0 && (matchChar rules p tok.codePoint).1).map Candidate.next ↔
          tok ∈ candidates ∧ tok.codePoint ≠ 0 ∧ (matchChar rules p tok.codePoint).1 = true := by
        rw [List.mem_map]
        constructor
        · rintro ⟨tok', htok', heq⟩
          have heq' : tok' = tok := congrArg Candidate.back heq
          rw [heq'] at htok'
          simpa using List.mem_filter.mp htok'
        · rintro ⟨h, hcond⟩
          exact ⟨tok, List.mem_filter.mpr ⟨h, by simpa using hcond⟩, rfl⟩
      rw [List.mem_append, List.mem_filter, hback, hrejects, hinj, admits_char_iff hchar]
      by_cases hzero : tok.codePoint = 0
      · simp [hzero]
      · by_cases hmatch : (matchChar rules p tok.codePoint).1 = true
        · simp [hzero, hmatch, hleads]
        · simp [hzero, hmatch]

/-- The candidates that are rejected are those that no stack admits. -/
theorem rejectCandidates_settles (depth : Nat) {current : Stacks} (hne : current ≠ [])
    (hs : ∀ s ∈ current, Ready rules s) {candidates : List Candidate}
    (hdepth : ∀ tok ∈ candidates, tok.remaining.length < depth) :
    ∃ rejects, (∀ tok, tok ∈ rejects ↔
        tok ∈ candidates ∧ ∀ s ∈ current, ¬ AdmitsCandidate rules tok s) ∧
      Settles (fun n => rejectCandidates rules n depth current candidates) rejects := by
  induction depth generalizing current candidates with
  | zero =>
    have hnil : candidates = [] :=
      List.eq_nil_iff_forall_not_mem.mpr fun tok htok => Nat.not_lt_zero _ (hdepth tok htok)
    rw [hnil]
    exact ⟨[], by simp, settles_pure _⟩
  | succ depth ih =>
    by_cases hnil : candidates = []
    · rw [hnil]
      simp only [rejectCandidates, if_neg hne, if_true]
      exact ⟨[], by simp, settles_pure _⟩
    · simp only [rejectCandidates, if_neg hne, if_neg hnil]
      obtain ⟨rejects, hrejects, hsettles⟩ := exists_settles_foldlM
        (f := fun n rejects stack =>
          rejectForStack rules n (rejectCandidates rules n depth) stack rejects)
        (fun done rejects => ∀ tok, tok ∈ rejects ↔
          tok ∈ candidates ∧ ∀ s ∈ done, ¬ AdmitsCandidate rules tok s)
        (fun done s rest hcurrent acc hacc => by
          obtain ⟨rejects, hrejects, hsettles⟩ := @rejectForStack_settles rules hreg s
            (hs s (by rw [hcurrent]; simp)) (fun n => rejectCandidates rules n depth) acc
            (fun next hnext hready toks htoks => ih hnext hready fun tok htok => by
              -- one code point less is left
              obtain ⟨tok', htok', hzero, rfl⟩ := htoks tok htok
              have hlen := hdepth tok' ((hacc tok').mp htok').1
              rw [Candidate.remaining_cons hzero, List.length_cons] at hlen
              exact Nat.lt_of_succ_lt_succ hlen)
          refine ⟨rejects, fun tok => ?_, hsettles⟩
          rw [hrejects, hacc]
          simp [or_imp, forall_and, and_assoc])
        (l := current) (b := candidates) (by simp)
      exact ⟨rejects, hrejects, hsettles⟩

end

/-! ### Reachable grammars -/

/-- Whatever the fuel, only stacks that the character leads to are added. -/
theorem acceptChr_sound {fuel c : Nat} {newStacks out : Stacks}
    (h : acceptChr rules fuel s c newStacks = some out) :
    ∀ t ∈ out, t ∈ newStacks ∨ CharStep rules c s t := by
  intro t ht
  unfold acceptChr at h
  split at h
  · cases h
    exact .inl ht
  · rename_i p rest
    split at h
    · cases h
      exact .inl ht
    · rename_i htoken
      split at h
      · rename_i hmatch
        rcases (mem_advanceStack h).mp ht with hold | hleads
        · exact .inl hold
        · exact .inr ⟨p, rest, rfl, by simpa using htoken, hmatch, hleads⟩
      · cases h
        exact .inl ht

theorem acceptChrAll_ready (hreg : Regular rules) {fuel c : Nat} {current out : Stacks}
    (h : acceptChrAll rules fuel current c = some out) (hs : ∀ s ∈ current, Ready rules s) :
    ∀ t ∈ out, Ready rules t := by
  refine @foldlM_invariant _ _ _ (fun out => ∀ t ∈ out, Ready rules t) _ _ _ h (by simp) ?_
  intro acc s out hmem hacc hround t ht
  rcases acceptChr_sound hround t ht with hold | hstep
  · exact hacc t hold
  · exact hstep.ready hreg (hs s hmem)

theorem acceptOnStack_ready (hreg : Regular rules) {fuel id : Nat} {cs : List Nat}
    {stacksNew out : Stacks} (h : acceptOnStack rules fuel id cs stacksNew s = some out)
    (hs : Ready rules s) (hnew : ∀ t ∈ stacksNew, Ready rules t) : ∀ t ∈ out, Ready rules t := by
  unfold acceptOnStack at h
  split at h
  · cases h
    exact hnew
  · rename_i p rest
    split at h
    · rename_i htoken
      split at h
      · intro t ht
        rcases (mem_advanceStack h).mp ht with hold | hleads
        · exact hnew t hold
        · exact Leads.ready hreg hleads (hs.behind_token hreg htoken)
      · cases h
        exact hnew
    · obtain ⟨surviving, hchars, rfl⟩ := Option.map_eq_some_iff.mp h
      have hready : ∀ t ∈ surviving, Ready rules t :=
        @foldlM_invariant _ _ _ (fun out => ∀ t ∈ out, Ready rules t) _ _ _ hchars
          (by simpa using hs) fun current c next _ hcurrent hround =>
            acceptChrAll_ready hreg hround hcurrent
      intro t ht
      rcases mem_foldl_addNew.mp ht with hold | hnewer
      · exact hnew t hold
      · exact hready t hnewer

/-- The initial stacks stand on elements that read. -/
theorem initialStacks_ready (hreg : Regular rules) {fuel start : Nat} {initial : Stacks}
    (h : initialStacks rules fuel start = some initial) :
    initial ≠ [] ∧ ∀ t ∈ initial, Ready rules t := by
  have hvalid : ∀ idx ∈ alternates (ruleAt rules start),
      ValidStack rules (pushPos rules ⟨start, idx⟩ []) :=
    fun idx hidx => validStack_nil.push (startsElement_of_alternate hreg.wellFormed hidx)
  constructor
  · -- a stack of the first alternate stays
    obtain ⟨t, ht⟩ := exists_leads hreg (hvalid 0 List.mem_cons_self)
    obtain ⟨first, hfirst, hrest⟩ := Option.bind_eq_some_iff.mp h
    have hmem : t ∈ first := (mem_advanceStack hfirst).mpr (.inr ht)
    exact List.ne_nil_of_mem (@foldlM_invariant _ _ _ (fun out => t ∈ out) _ _ _ hrest hmem
      fun acc idx out _ hacc hround => (mem_advanceStack hround).mpr (.inl hacc))
  · refine @foldlM_invariant _ _ _ (fun out => ∀ t ∈ out, Ready rules t) _ _ _ h (by simp) ?_
    intro acc idx out hmem hacc hround t ht
    rcases (mem_advanceStack hround).mp ht with hold | hleads
    · exact hacc t hold
    · exact Leads.ready hreg hleads (hvalid idx hmem)

/-- A reachable grammar has stacks, and all of them came out of `advanceStack`. -/
theorem Reachable.ready (hreg : Regular rules) {start : Nat} {vocab : Vocab}
    {grammar : LlamaGrammar} (h : Reachable rules start vocab grammar) :
    grammar.rules = rules ∧ grammar.grammarStacks ≠ [] ∧
      ∀ s ∈ grammar.grammarStacks, Ready rules s := by
  induction h with
  | init hinit => exact ⟨rfl, initialStacks_ready hreg hinit⟩
  | chr _ haccept hleft ih =>
    obtain ⟨hrules, -, hready⟩ := ih
    obtain ⟨out, hout, rfl⟩ := Option.map_eq_some_iff.mp haccept
    rw [hrules] at hout
    exact ⟨hrules, hleft, acceptChrAll_ready hreg hout hready⟩
  | token _ haccept hleft ih =>
    obtain ⟨hrules, -, hready⟩ := ih
    obtain ⟨out, hout, rfl⟩ := Option.map_eq_some_iff.mp haccept
    rw [hrules] at hout
    refine ⟨hrules, hleft, ?_⟩
    exact @foldlM_invariant _ _ _ (fun out => ∀ t ∈ out, Ready rules t) _ _ _ hout (by simp)
      fun acc s out hmem hacc hround => acceptOnStack_ready hreg hround (hready s hmem) hacc

/-! ### The mask -/

/-- The code points of a piece. -/
def pieceCodePoints (grammar : LlamaGrammar) (vocab : Vocab) (id : Nat) : List Nat :=
  (decodeUtf8 (vocab.tokenToPiece id) grammar.partialUtf8).1.dropLast

/-- The part of a character that a piece ends with. -/
def piecePartial (grammar : LlamaGrammar) (vocab : Vocab) (id : Nat) : PartialUtf8 :=
  (decodeUtf8 (vocab.tokenToPiece id) grammar.partialUtf8).2

/-- Some stack does not reject the token. -/
def LetThrough (grammar : LlamaGrammar) (vocab : Vocab) (id : Nat) : Prop :=
  ∃ s ∈ grammar.grammarStacks, Admits grammar.rules id (piecePartial grammar vocab id)
    (pieceCodePoints grammar vocab id) s

theorem decodeChars_zero (pos : List UInt8) (partialUtf8 : PartialUtf8) (codePoints : List Nat) :
    (decodeChars pos partialUtf8 codePoints).1.getLast? = some 0 := by
  induction pos generalizing partialUtf8 codePoints with
  | nil => simp [decodeChars]
  | cons b pos ih =>
    simp only [decodeChars]
    split
    · exact ih _ _
    · split
      · rfl
      · exact ih _ _

/-- There is a zero behind the code points. -/
theorem decodeUtf8_zero (src : List UInt8) (partialStart : PartialUtf8) :
    (decodeUtf8 src partialStart).1 = (decodeUtf8 src partialStart).1.dropLast ++ [0] := by
  have hlast : (decodeUtf8 src partialStart).1.getLast? = some 0 := by
    simp only [decodeUtf8]
    split
    · rfl
    · split
      · exact decodeChars_zero _ _ _
      · exact decodeChars_zero _ _ _
  obtain ⟨ys, hys⟩ := List.getLast?_eq_some_iff.mp hlast
  rw [hys, List.dropLast_concat]

/-- A text that has no whole character ends in a part of one. -/
theorem decodeChars_nil {pos : List UInt8} {partialUtf8 : PartialUtf8} {codePoints : List Nat}
    (hsome : pos ≠ [] ∨ partialUtf8.nRemain ≠ 0 ∨ codePoints ≠ [])
    (h : (decodeChars pos partialUtf8 codePoints).1.dropLast = []) :
    (decodeChars pos partialUtf8 codePoints).2.nRemain ≠ 0 := by
  induction pos generalizing partialUtf8 codePoints with
  | nil =>
    simp only [decodeChars, List.dropLast_concat] at h ⊢
    rcases hsome with hnil | hrest | hcodes
    · exact absurd rfl hnil
    · exact hrest
    · exact absurd h hcodes
  | cons b pos ih =>
    simp only [decodeChars] at h ⊢
    split at h
    · rw [if_pos ‹_›]
      refine ih (.inr ?_) h
      by_cases hone : partialUtf8.nRemain = 1
      · exact .inr (by simp [hone])
      · exact .inl (by show partialUtf8.nRemain - 1 ≠ 0; omega)
    · rw [if_neg ‹_›]
      split at h
      · rename_i hneg
        rw [if_pos hneg]
        exact Int.ne_of_lt hneg
      · rw [if_neg ‹_›]
        refine ih (.inr ?_) h
        by_cases hzero : followBytes b = 0
        · exact .inr (by simp [hzero])
        · exact .inl hzero

theorem continueChar_zero (pos : List UInt8) (value : Nat) :
    continueChar pos value 0 = some (pos, value, 0) := by
  cases pos with
  | nil => rfl
  | cons b pos => rfl

/-- A piece without a whole character ends in a part of one, or is not valid. -/
theorem decodeUtf8_nil {src : List UInt8} {partialStart : PartialUtf8} (hne : src ≠ [])
    (hfirst : src.head? ≠ some 0) (h : (decodeUtf8 src partialStart).1.dropLast = []) :
    (decodeUtf8 src partialStart).2.nRemain ≠ 0 := by
  have hpos : src.takeWhile (· ≠ 0) ≠ [] := by
    cases src with
    | nil => exact absurd rfl hne
    | cons b src =>
      have hb : b ≠ 0 := fun heq => hfirst (by rw [heq]; rfl)
      rw [List.takeWhile_cons_of_pos (by simpa using hb)]
      exact List.cons_ne_nil _ _
  simp only [decodeUtf8] at h ⊢
  generalize src.takeWhile (· ≠ 0) = pos at hpos h ⊢
  cases hcontinue : continueChar pos partialStart.value partialStart.nRemain.toNat with
  | none => simp
  | some res =>
    obtain ⟨pos', value, nRemain⟩ := res
    rw [hcontinue] at h
    simp only at h ⊢
    split at h
    · rw [if_pos ‹_›]
      refine decodeChars_nil (.inr ?_) h
      by_cases hzero : nRemain = 0
      · exact .inr (by simp [hzero])
      · exact .inl (by simpa using hzero)
    · rename_i hstart
      rw [if_neg hstart]
      -- no character was begun
      have hzero : partialStart.nRemain.toNat = 0 := by omega
      rw [hzero, continueChar_zero] at hcontinue
      cases hcontinue
      exact decodeChars_nil (.inl hpos) h

end PxqLlama.Grammar
