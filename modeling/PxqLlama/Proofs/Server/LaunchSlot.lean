import PxqLlama.Server.LaunchSlot

/-!
# `Proofs.Server.LaunchSlot`: what a request finds of the ones before

A setting is written by the task, or keeps what the slot has. For each of them `new…` says what the
task writes, if it does, and one lemma about its stage says that the launch takes this or the old
value. `launch_settings` puts the stages together. The slot's caches are what the invariant `Inv`
is about: they are never wrong for the parts they were made from, and the table of the allowlist is
the one of the first request.

`settings_eq_iff` compares two histories: the settings are the same exactly when the slots agree on
what the task does not write.
-/

namespace PxqLlama.Server.Launch

open Attempt

section

variable {F E T : Type}
variable {srv : ServerContext F E T} {data : TaskData F} {task : Task F} {s s' : State F E T}

/-! ### What a task writes -/

def newNKeep (srv : ServerContext F E T) (data : TaskData F) : Option Int :=
  data.nKeep.bind (Json.getInt32 srv.truncate)

def newBreakers (data : TaskData F) : Option (List Bytes) :=
  data.drySequenceBreakers.map fun v => jsonValue Json.getStrs (some v) []

/-- The task has a schema that is used. -/
def usesSchema (data : TaskData F) : Prop := data.jsonSchema.isSome ∧ data.grammar.isNone

instance (data : TaskData F) : Decidable (usesSchema data) :=
  inferInstanceAs (Decidable (_ ∧ _))

/-- The grammar is always written. -/
def newGrammar (srv : ServerContext F E T) (data : TaskData F) : Grammar :=
  if usesSchema data then ⟨.outputFormat, (srv.jsonSchemaToGrammar data.jsonSchema).getD []⟩
  else requestGrammar srv data

def newGrammarLazy (srv : ServerContext F E T) (data : TaskData F) : Option Bool :=
  if usesSchema data then none
  else some (jsonValue Json.asBool data.grammarLazy srv.sparams.grammarLazy)

def addId (srv : ServerContext F E T) (tokens : Finset Int) (t : Json F) : Finset Int :=
  match (t.asStr.map fun text => srv.tokenize text true) with
  | some [id] => insert id tokens
  | _ => tokens

def newPreserved (srv : ServerContext F E T) (data : TaskData F) : Option (Finset Int) :=
  data.preservedTokens.map fun v => v.elements.foldl (addId srv) ∅

def newTriggers (srv : ServerContext F E T) (data : TaskData F) : Option (List Trigger) :=
  data.grammarTriggers.map fun v => v.elements.filterMap (triggerOf srv)

def newStart (srv : ServerContext F E T) (data : TaskData F) : Option (List Int) :=
  let tag := jsonValue Json.asStr data.reasoningBudgetStartTag []
  if tag = [] then none else some (srv.tokenize tag true)

def newEnd (srv : ServerContext F E T) (data : TaskData F) : Option (List Int) :=
  let tag := jsonValue Json.asStr data.reasoningBudgetEndTag []
  if tag = [] then none else some (srv.tokenize tag true)

def newForced (srv : ServerContext F E T) (data : TaskData F) : Option (List Int) :=
  let tag := jsonValue Json.asStr data.reasoningBudgetEndTag []
  let message := jsonValue Json.asStr data.reasoningBudgetMessage []
  if tag = [] then none else some (srv.tokenize (message ++ tag) true)

def newBiases (srv : ServerContext F E T) (data : TaskData F) : Option (Int → Option F) :=
  match data.logitBias with
  | some (.arr xs) => some (xs.foldl (biasOfElement srv) fun _ => none)
  | some (.obj kvs) => some (kvs.foldl (biasOfItem srv) fun _ => none)
  | _ => none

def newStop (data : TaskData F) : Option (List Bytes) :=
  match data.stop with
  | some (.arr words) => some ((words.filter fun word => !word.isEmpty).filterMap Json.asStr)
  | _ => none

def newSamplers (srv : ServerContext F E T) (data : TaskData F) : Option (List Nat) :=
  match data.samplers with
  | none => none
  | some (.arr xs) => some (srv.samplingTypesFromNames ((xs.mapM Json.asStr).getD []))
  | some (.str chars) => some (srv.samplingTypesFromChars chars)
  | some _ => some srv.sparams.samplersSequence

/-- The strings that are banned: those of the task, or those of the server. -/
def newBanPhrases (srv : ServerContext F E T) (data : TaskData F) (ban : BanParams) : List Bytes :=
  match data.bannedStrings with
  | some (.arr xs) =>
    srv.sortByLength (((xs.filterMap Json.asStr).filter (· ≠ [])).map stringLower)
  | _ => (usePhrases srv ban).1

/-! ### The stages -/

theorem jsonValue_eq {α : Type} (get : Json F → Option α) (value : Option (Json F)) (old : α)
    (hnull : get .null = none) : jsonValue get value old = (value.bind get).getD old := by
  cases value with
  | none => rfl
  | some v =>
    cases v with
    | null => simp [jsonValue, hnull]
    | bool | int | float | str | arr | obj => rfl

theorem setNKeep_eq : setNKeep srv data s =
    { s with slot.nKeep := (newNKeep srv data).getD s.slot.nKeep } := by
  unfold setNKeep newNKeep
  rw [jsonValue_eq _ _ _ rfl]

theorem require_ok {check : Check} (h : require task check s = .ok s') : s' = s := by
  unfold require at h
  split at h
  · cases h
    rfl
  · cases h

theorem setDrySequenceBreakers_ok (h : setDrySequenceBreakers data s = .ok s') :
    s' = { s with
      slot.sparams.drySequenceBreakers :=
        (newBreakers data).getD s.slot.sparams.drySequenceBreakers } := by
  unfold setDrySequenceBreakers at h
  unfold newBreakers
  cases hkey : data.drySequenceBreakers with
  | none =>
    rw [hkey] at h
    cases h
    rfl
  | some v =>
    rw [hkey] at h
    simp only at h
    split at h
    · cases h
    · cases h
      rfl

/-- What a successful check of the grammar leaves. -/
theorem setGrammar_ok (h : setGrammar srv data s = .ok s') :
    s' = { s with
      slot.sparams.grammar := newGrammar srv data
      slot.sparams.grammarLazy :=
        (newGrammarLazy srv data).getD s.slot.sparams.grammarLazy } := by
  unfold setGrammar at h
  unfold newGrammar newGrammarLazy
  split at h
  · next hschema =>
    have hschema : usesSchema data := hschema
    rw [if_pos hschema, if_pos hschema]
    split at h
    · cases h
    · next text htext =>
      cases h
      rw [htext]
      rfl
  · next hschema =>
    have hschema : ¬ usesSchema data := hschema
    rw [if_neg hschema, if_neg hschema]
    cases h
    rfl

/-- What a preserved token adds. -/
theorem addPreserved_ok {t : Json F} (h : addPreserved srv s t = .ok s') :
    s' = { s with
      slot.sparams.preservedTokens := addId srv s.slot.sparams.preservedTokens t } := by
  unfold addPreserved at h
  unfold addId
  cases htext : t.asStr with
  | none =>
    rw [htext] at h
    cases h
  | some text =>
    rw [htext] at h
    simp only [Option.map_some] at h ⊢
    split at h
    · next id heq =>
      cases h
      rw [heq]
    · next hne =>
      cases h
      split
      · next id heq => exact absurd (Option.some.inj heq) (hne id)
      · rfl

/-- What the preserved tokens of the request leave. -/
theorem setPreservedTokens_ok (h : setPreservedTokens srv data s = .ok s') :
    s' = { s with
      slot.sparams.preservedTokens :=
        (newPreserved srv data).getD s.slot.sparams.preservedTokens } := by
  unfold setPreservedTokens at h
  unfold newPreserved
  cases hkey : data.preservedTokens with
  | none =>
    rw [hkey] at h
    cases h
    rfl
  | some v =>
    rw [hkey] at h
    rw [foldlM_eq_ok (fun _ _ _ => addPreserved_ok) h]
    simp only [Option.map_some, Option.getD_some]
    -- the loop only changes the set
    generalize (∅ : Finset Int) = tokens
    generalize v.elements = ts
    clear h hkey
    induction ts generalizing tokens with
    | nil => rfl
    | cons t ts ih =>
      rw [List.foldl_cons, List.foldl_cons]
      exact ih _

theorem addTrigger_ok {t : Json F} (h : addTrigger srv s t = .ok s') :
    s' = { s with
      slot.sparams.grammarTriggers :=
        s.slot.sparams.grammarTriggers ++ (triggerOf srv t).toList } := by
  unfold addTrigger at h
  split at h
  · cases h
  · next trigger heq =>
    rw [heq]
    split at h
    · cases h
    · cases h
      rfl

/-- What the triggers of the request leave. -/
theorem setGrammarTriggers_ok (h : setGrammarTriggers srv data s = .ok s') :
    s' = { s with
      slot.sparams.grammarTriggers :=
        (newTriggers srv data).getD s.slot.sparams.grammarTriggers } := by
  unfold setGrammarTriggers at h
  unfold newTriggers
  cases hkey : data.grammarTriggers with
  | none =>
    rw [hkey] at h
    cases h
    rfl
  | some v =>
    rw [hkey] at h
    rw [foldlM_eq_ok (fun _ _ _ => addTrigger_ok) h]
    simp only [Option.map_some, Option.getD_some]
    have hloop : ∀ (ts : List (Json F)) (triggers : List Trigger),
        ts.foldl (fun (s : State F E T) t =>
            { s with
              slot.sparams.grammarTriggers :=
                s.slot.sparams.grammarTriggers ++ (triggerOf srv t).toList })
          { s with slot.sparams.grammarTriggers := triggers } =
        { s with
          slot.sparams.grammarTriggers := triggers ++ ts.filterMap (triggerOf srv) } := by
      intro ts
      induction ts with
      | nil => simp
      | cons t ts ih =>
        intro triggers
        rw [List.foldl_cons, ih]
        cases htrigger : triggerOf srv t <;> simp [htrigger]
    rw [hloop, List.nil_append]

theorem requireTriggers_ok (h : requireTriggers s = .ok s') : s' = s := by
  unfold requireTriggers at h
  split at h
  · cases h
  · cases h
    rfl

theorem setReasoningBudget_eq : setReasoningBudget srv data s =
    { s with
      slot.sparams.reasoningBudgetStart :=
        (newStart srv data).getD s.slot.sparams.reasoningBudgetStart
      slot.sparams.reasoningBudgetEnd :=
        (newEnd srv data).getD s.slot.sparams.reasoningBudgetEnd
      slot.sparams.reasoningBudgetForced :=
        (newForced srv data).getD s.slot.sparams.reasoningBudgetForced } := by
  unfold setReasoningBudget newStart newEnd newForced
  simp only
  congr 4 <;> split <;> rfl

theorem requestBiases_eq (old : Int → Option F) :
    requestBiases srv data old = (newBiases srv data).getD old := by
  unfold requestBiases newBiases
  cases data.logitBias with
  | none => rfl
  | some v => cases v <;> rfl

theorem setBanPhrases_eq (hreset : s.slot.banPhrases = []) :
    (setBanPhrases srv data s).slot =
      { s.slot with banPhrases := newBanPhrases srv data s.ban } := by
  have hused : ((if s.ban.phrases = [] then s
      else { slot := { s.slot with banPhrases := (usePhrases srv s.ban).1 }
             ban := (usePhrases srv s.ban).2 }) : State F E T).slot =
      { s.slot with banPhrases := (usePhrases srv s.ban).1 } := by
    split
    · next hnone =>
      simp [usePhrases, hnone, ← hreset]
    · rfl
  unfold setBanPhrases newBanPhrases
  cases data.bannedStrings with
  | none => exact hused
  | some v =>
    cases v with
    | arr xs => rfl
    | null | bool | int | float | str | obj => exact hused

theorem addAntiprompt_ok {word : Json F} (h : addAntiprompt s word = .ok s') :
    s' = { s with
      slot.antiprompt :=
        s.slot.antiprompt ++ (if word.isEmpty then none else word.asStr).toList } := by
  unfold addAntiprompt at h
  split at h
  · next hempty =>
    cases h
    simp [hempty]
  · next hempty =>
    split at h
    · cases h
    · next text htext =>
      cases h
      simp [hempty, htext]

/-- What the stop words of the request leave. -/
theorem setAntiprompt_ok (h : setAntiprompt data s = .ok s') :
    s' = { s with slot.antiprompt := (newStop data).getD s.slot.antiprompt } := by
  have hloop : ∀ (ws : List (Json F)) (words : List Bytes),
      ws.foldl (fun (s : State F E T) word =>
          { s with
            slot.antiprompt :=
              s.slot.antiprompt ++ (if word.isEmpty then none else word.asStr).toList })
        { s with slot.antiprompt := words } =
      { s with
        slot.antiprompt :=
          words ++ (ws.filter fun word => !word.isEmpty).filterMap Json.asStr } := by
    intro ws
    induction ws with
    | nil => simp
    | cons w ws ih =>
      intro words
      rw [List.foldl_cons, ih]
      cases hempty : w.isEmpty <;> cases htext : w.asStr <;> simp [hempty, htext]
  unfold setAntiprompt at h
  unfold newStop
  rcases hkey : data.stop with _ | v
  · rw [hkey] at h
    cases h
    rfl
  · rw [hkey] at h
    cases v with
    | arr words =>
      rw [foldlM_eq_ok (fun _ _ _ => addAntiprompt_ok) h, hloop]
      rfl
    | null | bool | int | float | str | obj =>
      cases h
      rfl

/-- What the samplers of the request leave. -/
theorem setSamplers_ok (h : setSamplers srv data s = .ok s') :
    s' = { s with
      slot.sparams.samplersSequence :=
        (newSamplers srv data).getD s.slot.sparams.samplersSequence } := by
  unfold setSamplers at h
  unfold newSamplers
  rcases hkey : data.samplers with _ | v
  · rw [hkey] at h
    cases h
    rfl
  · rw [hkey] at h
    cases v with
    | arr xs =>
      simp only at h
      split at h
      · cases h
      · next names hnames =>
        cases h
        simp only [hnames, Option.getD_some]
    | null | bool | int | float | str | obj =>
      cases h
      rfl

theorem initSampler_ok (h : initSampler srv task s = .ok s') : s' = s := by
  unfold initSampler at h
  split at h
  · cases h
    rfl
  · cases h

/-! ### The caches of a slot -/

/-- The startup list of banned strings as it is used. -/
def startupPhrases (srv : ServerContext F E T) : List Bytes :=
  (srv.sortByLength srv.banPhrases).map stringLower

/-- The table of the allowlist as it is made for a task. -/
def freshTable (srv : ServerContext F E T) (data : TaskData F) : List (List F) :=
  (allowRules srv).map (allowBiases srv data)

/-- The caches of the slot and of the server agree with what they are made from. -/
structure Inv (srv : ServerContext F E T) (s : State F E T) : Prop where
  elb : s.slot.prevElbStates = [] ∨
    s.slot.prevElbStates = freshElbStates srv s.slot.sparams.elbParams
  allow : s.slot.allowRulessPrev = [] ∨
    s.slot.allowRulessPrev = allowRules srv ∧
      s.slot.allowBiasess.length = (allowRules srv).length
  ban : s.ban = ⟨srv.banPhrases, 0⟩ ∨ s.ban.nBuffer ≠ 0 ∧ s.ban.phrases = startupPhrases srv

theorem start_inv (srv : ServerContext F E T) : Inv srv srv.start :=
  ⟨.inl rfl, .inl rfl, .inl rfl⟩

/-- What the invariant is about. -/
def caches (s : State F E T) :=
  (s.slot.prevElbStates, s.slot.sparams.elbParams, s.slot.allowRulessPrev, s.slot.allowBiasess,
    s.ban)

theorem Inv.of_caches (h : Inv srv s) (heq : caches s' = caches s) : Inv srv s' := by
  simp only [caches, Prod.mk.injEq] at heq
  obtain ⟨h₁, h₂, h₃, h₄, h₅⟩ := heq
  constructor
  · rw [h₁, h₂]
    exact h.elb
  · rw [h₃, h₄]
    exact h.allow
  · rw [h₅]
    exact h.ban

theorem mem_sortByLength {phrase : Bytes} :
    phrase ∈ srv.sortByLength srv.banPhrases ↔ phrase ∈ srv.banPhrases :=
  (srv.sortByLength_perm srv.banPhrases).mem_iff

/-- No phrase of the list gets lost, as none is empty. -/
theorem filter_startupPhrases :
    (startupPhrases srv).filter (fun phrase => decide (phrase ≠ [])) = startupPhrases srv := by
  rw [List.filter_eq_self]
  intro phrase hphrase
  obtain ⟨original, horiginal, rfl⟩ := List.mem_map.mp hphrase
  have hne := srv.banPhrases_ne original (mem_sortByLength.mp horiginal)
  simpa [stringLower] using hne

theorem prepared_eq : (srv.sortByLength srv.banPhrases).map
    (fun phrase => if phrase = [] then phrase else stringLower phrase) = startupPhrases srv := by
  apply List.map_congr_left
  intro phrase hphrase
  rw [if_neg (srv.banPhrases_ne phrase (mem_sortByLength.mp hphrase))]

/-- The startup list is used in the same way, whether it is prepared or not. -/
theorem usePhrases_inv (h : Inv srv s) :
    (usePhrases srv s.ban).1 = startupPhrases srv ∧
      ((usePhrases srv s.ban).2 = ⟨srv.banPhrases, 0⟩ ∨
        (usePhrases srv s.ban).2.nBuffer ≠ 0 ∧
          (usePhrases srv s.ban).2.phrases = startupPhrases srv) := by
  rcases h.ban with hban | ⟨hbuffer, hphrases⟩
  · rw [hban]
    unfold usePhrases
    simp only
    split
    · next hnone =>
      refine ⟨?_, .inl rfl⟩
      have hperm := srv.sortByLength_perm srv.banPhrases
      rw [hnone] at hperm
      rw [startupPhrases, hnone, hperm.eq_nil]
      rfl
    · rw [if_pos trivial, prepared_eq, filter_startupPhrases]
      exact ⟨rfl, .inr ⟨Nat.succ_ne_zero _, rfl⟩⟩
  · unfold usePhrases
    split
    · next hnone => exact ⟨by rw [← hphrases, hnone], .inr ⟨hbuffer, hphrases⟩⟩
    · exact ⟨hphrases, .inr ⟨hbuffer, hphrases⟩⟩

theorem setBanPhrases_inv (h : Inv srv s) : Inv srv (setBanPhrases srv data s) := by
  have hused : Inv srv (if s.ban.phrases = [] then s
      else { slot := { s.slot with banPhrases := (usePhrases srv s.ban).1 }
             ban := (usePhrases srv s.ban).2 }) := by
    split
    · exact h
    · exact ⟨h.elb, h.allow, (usePhrases_inv h).2⟩
  unfold setBanPhrases
  cases data.bannedStrings with
  | none => exact hused
  | some v =>
    cases v with
    | arr xs => exact h.of_caches rfl
    | null | bool | int | float | str | obj => exact hused

section

variable [DecidableEq F]

/-- The table of the allowlist is the one that the slot has, if it has one. -/
theorem setAllowlist_table (h : Inv srv s) (data : TaskData F) :
    (setAllowlist srv data s).slot.allowBiasess =
      if s.slot.allowRulessPrev = [] then freshTable srv data else s.slot.allowBiasess := by
  unfold setAllowlist
  simp only
  split
  · next hnone =>
    unfold freshTable
    apply List.ext_getElem
    · simp
    · intro i h₁ h₂
      simp only [List.length_map, List.length_range] at h₁
      simp [allowRow, hnone, h₁]
  · next hsome =>
    obtain ⟨hrules, hlength⟩ := h.allow.resolve_left hsome
    apply List.ext_getElem
    · simp [hlength]
    · intro i h₁ h₂
      simp only [List.length_map, List.length_range] at h₁
      simp [allowRow, hrules, h₁, h₂]

theorem setAllowlist_inv (h : Inv srv s) (data : TaskData F) : Inv srv (setAllowlist srv data s) :=
  ⟨h.elb, .inr ⟨rfl, by simp [setAllowlist]⟩, h.ban⟩

end

section

variable [DecidableEq E]

/-- The states are always those of the parts. -/
theorem setExpiringBiases_eq (h : Inv srv s) (data : TaskData F) :
    (setExpiringBiases srv data s).slot.elbStates =
      if requestElb srv data s.slot.sparams.elbParams = [] then []
      else freshElbStates srv (requestElb srv data s.slot.sparams.elbParams) := by
  unfold setExpiringBiases
  simp only
  split
  · rfl
  · split
    · next hkept =>
      rw [h.elb.resolve_left hkept.1, hkept.2]
      simp [freshElbStates]
    · rfl

theorem setExpiringBiases_inv (h : Inv srv s) : Inv srv (setExpiringBiases srv data s) := by
  refine ⟨?_, h.allow, h.ban⟩
  have hstates : (setExpiringBiases srv data s).slot.prevElbStates =
      (setExpiringBiases srv data s).slot.elbStates := rfl
  rw [hstates, setExpiringBiases_eq h data]
  split
  · exact .inl rfl
  · exact .inr rfl

end

/-! ### The settings after a launch -/

/-- The settings that a launch makes: of the task, of the server, and of the slot's old ones. -/
def launched (srv : ServerContext F E T) (data : TaskData F) (s : State F E T) :
    Settings F E T where
  nKeep := (newNKeep srv data).getD s.slot.nKeep
  antiprompt := (newStop data).getD s.slot.antiprompt
  logitBias :=
    let biases := (newBiases srv data).getD s.slot.sparams.logitBias
    if ignoresEos srv data then setBiases [srv.tokenEos] srv.negInf biases else biases
  samplersSequence := (newSamplers srv data).getD s.slot.sparams.samplersSequence
  drySequenceBreakers := (newBreakers data).getD s.slot.sparams.drySequenceBreakers
  preservedTokens := (newPreserved srv data).getD s.slot.sparams.preservedTokens
  grammar := newGrammar srv data
  grammarLazy := (newGrammarLazy srv data).getD s.slot.sparams.grammarLazy
  grammarTriggers := (newTriggers srv data).getD s.slot.sparams.grammarTriggers
  reasoningBudgetStart := (newStart srv data).getD s.slot.sparams.reasoningBudgetStart
  reasoningBudgetEnd := (newEnd srv data).getD s.slot.sparams.reasoningBudgetEnd
  reasoningBudgetForced := (newForced srv data).getD s.slot.sparams.reasoningBudgetForced
  elbParams := requestElb srv data s.slot.sparams.elbParams
  elbStates :=
    let params := requestElb srv data s.slot.sparams.elbParams
    if params = [] then [] else freshElbStates srv params
  allowBiasess :=
    if s.slot.allowRulessPrev = [] then freshTable srv data else s.slot.allowBiasess
  banPhrases :=
    match data.bannedStrings with
    | some (.arr xs) =>
      srv.sortByLength (((xs.filterMap Json.asStr).filter (· ≠ [])).map stringLower)
    | _ => startupPhrases srv

theorem getD_eq_iff {α : Type} (new : Option α) (old old' : α) :
    new.getD old = new.getD old' ↔ new.isSome ∨ old = old' := by
  cases new <;> simp

/-- The number of parts does not depend on the ones before. -/
theorem length_elbLoop (lines : List (ElbLine E)) (entries entries' : List E)
    (back back' : ElbParam E) :
    (elbLoop entries back lines).length = (elbLoop entries' back' lines).length := by
  induction lines generalizing entries entries' back back' with
  | nil => rfl
  | cons line lines ih =>
    cases line with
    | clear => exact ih _ _ _ _
    | entry nested e => exact ih _ _ _ _
    | exit exitword op =>
      simp only [elbLoop, List.length_cons]
      rw [ih]

/-- The old parts can be read off the new ones. -/
theorem requestElb_inj {old old' : List (ElbParam E)}
    (h : requestElb srv data old = requestElb srv data old') : old = old' := by
  unfold requestElb at h
  cases hcontent : elbContent data with
  | none =>
    rw [hcontent] at h
    exact h
  | some content =>
    rw [hcontent] at h
    simp only at h
    split at h
    · exact h
    · exact (List.append_inj' h (length_elbLoop _ _ _ _ _)).1

theorem setBiases_eq_iff {token : Int} {bias : F} {map map' : Int → Option F} :
    setBiases [token] bias map = setBiases [token] bias map' ↔
      ∀ t, t ≠ token → map t = map' t := by
  constructor
  · intro h t ht
    have heq := congrFun h t
    simpa [setBiases, ht] using heq
  · intro h
    funext t
    unfold setBiases
    split
    · rfl
    · next hne => exact h t (by simpa using hne)

/-! ### Two histories -/

/-- The table of the allowlist that a request gets: the one of the slot's first request. -/
def tableFor (srv : ServerContext F E T) (data : TaskData F) (slot : Slot F E T) : List (List F) :=
  if slot.allowRulessPrev = [] then freshTable srv data else slot.allowBiasess

/-- The slots agree on each setting that the task does not write. The task never writes all of the
expiring biases: its own are added to the old ones. -/
structure SameLeftovers (srv : ServerContext F E T) (data : TaskData F) (a b : Slot F E T) :
    Prop where
  nKeep : (newNKeep srv data).isSome ∨ a.nKeep = b.nKeep
  antiprompt : (newStop data).isSome ∨ a.antiprompt = b.antiprompt
  logitBias : (newBiases srv data).isSome ∨ ∀ token,
    ¬ (ignoresEos srv data ∧ token = srv.tokenEos) →
      a.sparams.logitBias token = b.sparams.logitBias token
  samplersSequence : (newSamplers srv data).isSome ∨
    a.sparams.samplersSequence = b.sparams.samplersSequence
  drySequenceBreakers : (newBreakers data).isSome ∨
    a.sparams.drySequenceBreakers = b.sparams.drySequenceBreakers
  preservedTokens : (newPreserved srv data).isSome ∨
    a.sparams.preservedTokens = b.sparams.preservedTokens
  grammarLazy : (newGrammarLazy srv data).isSome ∨
    a.sparams.grammarLazy = b.sparams.grammarLazy
  grammarTriggers : (newTriggers srv data).isSome ∨
    a.sparams.grammarTriggers = b.sparams.grammarTriggers
  reasoningBudgetStart : (newStart srv data).isSome ∨
    a.sparams.reasoningBudgetStart = b.sparams.reasoningBudgetStart
  reasoningBudgetEnd : (newEnd srv data).isSome ∨
    a.sparams.reasoningBudgetEnd = b.sparams.reasoningBudgetEnd
  reasoningBudgetForced : (newForced srv data).isSome ∨
    a.sparams.reasoningBudgetForced = b.sparams.reasoningBudgetForced
  elbParams : a.sparams.elbParams = b.sparams.elbParams
  allowBiasess : tableFor srv data a = tableFor srv data b

/-- Two slots launch alike exactly when what the request leaves alone agrees. -/
theorem launched_eq_iff (srv : ServerContext F E T) (data : TaskData F) (a b : State F E T) :
    launched srv data a = launched srv data b ↔ SameLeftovers srv data a.slot b.slot := by
  have hbias : (launched srv data a).logitBias = (launched srv data b).logitBias ↔
      ((newBiases srv data).isSome ∨ ∀ token, ¬ (ignoresEos srv data ∧ token = srv.tokenEos) →
        a.slot.sparams.logitBias token = b.slot.sparams.logitBias token) := by
    simp only [launched]
    cases newBiases srv data with
    | some biases => simp
    | none =>
      by_cases heos : ignoresEos srv data = true
      · simp [heos, setBiases_eq_iff]
      · simp [heos, funext_iff]
  have helb : requestElb srv data a.slot.sparams.elbParams =
      requestElb srv data b.slot.sparams.elbParams ↔
      a.slot.sparams.elbParams = b.slot.sparams.elbParams :=
    ⟨requestElb_inj, fun h => by rw [h]⟩
  constructor
  · intro h
    constructor
    · exact (getD_eq_iff _ _ _).mp (congrArg Settings.nKeep h)
    · exact (getD_eq_iff _ _ _).mp (congrArg Settings.antiprompt h)
    · exact hbias.mp (congrArg Settings.logitBias h)
    · exact (getD_eq_iff _ _ _).mp (congrArg Settings.samplersSequence h)
    · exact (getD_eq_iff _ _ _).mp (congrArg Settings.drySequenceBreakers h)
    · exact (getD_eq_iff _ _ _).mp (congrArg Settings.preservedTokens h)
    · exact (getD_eq_iff _ _ _).mp (congrArg Settings.grammarLazy h)
    · exact (getD_eq_iff _ _ _).mp (congrArg Settings.grammarTriggers h)
    · exact (getD_eq_iff _ _ _).mp (congrArg Settings.reasoningBudgetStart h)
    · exact (getD_eq_iff _ _ _).mp (congrArg Settings.reasoningBudgetEnd h)
    · exact (getD_eq_iff _ _ _).mp (congrArg Settings.reasoningBudgetForced h)
    · exact helb.mp (congrArg Settings.elbParams h)
    · exact congrArg Settings.allowBiasess h
  · intro h
    have hlogit := hbias.mpr h.logitBias
    have htable : (launched srv data a).allowBiasess = (launched srv data b).allowBiasess :=
      h.allowBiasess
    simp only [launched, Settings.mk.injEq] at hlogit htable ⊢
    simp only [getD_eq_iff, h.elbParams, hlogit, htable, true_and, and_true]
    exact ⟨h.nKeep, h.antiprompt, h.samplersSequence, h.drySequenceBreakers, h.preservedTokens,
      h.grammarLazy, h.grammarTriggers, h.reasoningBudgetStart, h.reasoningBudgetEnd,
      h.reasoningBudgetForced⟩

/-! ### A launch keeps the invariant, also when it fails -/

theorem require_caches (check : Check) (s : State F E T) :
    caches (left (require task check s)) = caches s := by
  unfold require
  split <;> rfl

theorem setDrySequenceBreakers_caches (s : State F E T) :
    caches (left (setDrySequenceBreakers data s)) = caches s := by
  unfold setDrySequenceBreakers
  split
  · rfl
  · simp only
    split <;> rfl

theorem setGrammar_caches (s : State F E T) :
    caches (left (setGrammar srv data s)) = caches s := by
  unfold setGrammar
  split
  · split <;> rfl
  · rfl

theorem setPreservedTokens_caches (s : State F E T) :
    caches (left (setPreservedTokens srv data s)) = caches s := by
  unfold setPreservedTokens
  split
  · rfl
  · apply (left_foldlM _ _ _).trans
    · rfl
    · intro t v
      unfold addPreserved
      split
      · rfl
      · split <;> rfl

theorem setGrammarTriggers_caches (s : State F E T) :
    caches (left (setGrammarTriggers srv data s)) = caches s := by
  unfold setGrammarTriggers
  split
  · rfl
  · apply (left_foldlM _ _ _).trans
    · rfl
    · intro t v
      unfold addTrigger
      split
      · rfl
      · split <;> rfl

theorem requireTriggers_caches (s : State F E T) :
    caches (left (requireTriggers s)) = caches s := by
  unfold requireTriggers
  split <;> rfl

theorem setAntiprompt_caches (s : State F E T) :
    caches (left (setAntiprompt data s)) = caches s := by
  unfold setAntiprompt
  split
  · apply (left_foldlM _ _ _).trans
    · rfl
    · intro t v
      unfold addAntiprompt
      split
      · rfl
      · split <;> rfl
  · rfl

theorem setSamplers_caches (s : State F E T) :
    caches (left (setSamplers srv data s)) = caches s := by
  unfold setSamplers
  split
  · rfl
  · split <;> rfl
  · rfl
  · rfl

theorem initSampler_caches (s : State F E T) :
    caches (left (initSampler srv task s)) = caches s := by
  unfold initSampler
  split <;> rfl

variable [DecidableEq F] [DecidableEq E]

/-- A launch leaves the invariant of the server, also when it fails. -/
theorem launch_inv (h : Inv srv s) : Inv srv (left (launchSlotWithTask srv task (reset s))) := by
  unfold launchSlotWithTask
  refine left_bind (h.of_caches (require_caches _ _)) fun s₁ h₁ => ?_
  refine left_bind (h₁.of_caches (setDrySequenceBreakers_caches _)) fun s₂ h₂ => ?_
  refine left_bind (h₂.of_caches (setGrammar_caches _)) fun s₃ h₃ => ?_
  refine left_bind (h₃.of_caches (require_caches _ _)) fun s₄ h₄ => ?_
  refine left_bind (h₄.of_caches (setPreservedTokens_caches _)) fun s₅ h₅ => ?_
  refine left_bind (h₅.of_caches (setGrammarTriggers_caches _)) fun s₆ h₆ => ?_
  refine left_bind (h₆.of_caches (requireTriggers_caches _)) fun s₇ h₇ => ?_
  have hbias : Inv srv (setLogitBias srv task.data (setReasoningBudget srv task.data s₇)) :=
    h₇.of_caches rfl
  refine left_bind ((setBanPhrases_inv hbias).of_caches (require_caches _ _)) fun s₈ h₈ => ?_
  refine left_bind ((setAllowlist_inv h₈ _).of_caches (setAntiprompt_caches _)) fun s₉ h₉ => ?_
  refine left_bind (h₉.of_caches (setSamplers_caches _)) fun s₁₀ h₁₀ => ?_
  refine left_bind (h₁₀.of_caches (initSampler_caches _)) fun s₁₁ h₁₁ => ?_
  exact setExpiringBiases_inv h₁₁

theorem serve_inv (h : Inv srv s) (event : Event F) : Inv srv (serve srv s event) := by
  cases event with
  | request task => exact launch_inv h
  | otherSlot => exact ⟨h.elb, h.allow, (usePhrases_inv h).2⟩

/-- The invariant holds after every history. -/
theorem after_inv (srv : ServerContext F E T) (history : List (Event F)) :
    Inv srv (after srv history) := by
  unfold after
  have hrun : ∀ (events : List (Event F)) (s : State F E T), Inv srv s →
      Inv srv (events.foldl (serve srv) s) := by
    intro events
    induction events with
    | nil => intro s h; exact h
    | cons event events ih => intro s h; exact ih _ (serve_inv h event)
  exact hrun history _ (start_inv srv)

/-- A launch that succeeds computes the settings from the request and the leftovers. -/
theorem launch_settings (hinv : Inv srv s)
    (h : launchSlotWithTask srv task (reset s) = .ok s') :
    s'.slot.settings = launched srv task.data s := by
  unfold launchSlotWithTask at h
  obtain ⟨s₁, h₁, h⟩ := bind_eq_ok.mp h
  obtain ⟨s₂, h₂, h⟩ := bind_eq_ok.mp h
  obtain ⟨s₃, h₃, h⟩ := bind_eq_ok.mp h
  obtain ⟨s₄, h₄, h⟩ := bind_eq_ok.mp h
  obtain ⟨s₅, h₅, h⟩ := bind_eq_ok.mp h
  obtain ⟨s₆, h₆, h⟩ := bind_eq_ok.mp h
  obtain ⟨s₇, h₇, h⟩ := bind_eq_ok.mp h
  obtain ⟨s₈, h₈, h⟩ := bind_eq_ok.mp h
  obtain ⟨s₉, h₉, h⟩ := bind_eq_ok.mp h
  obtain ⟨s₁₀, h₁₀, h⟩ := bind_eq_ok.mp h
  obtain ⟨s₁₁, h₁₁, h⟩ := bind_eq_ok.mp h
  cases h
  rw [setNKeep_eq] at h₁
  have e₁ := require_ok h₁
  have e₂ := setDrySequenceBreakers_ok h₂
  have e₃ := setGrammar_ok h₃
  have e₄ := require_ok h₄
  have e₅ := setPreservedTokens_ok h₅
  have e₆ := setGrammarTriggers_ok h₆
  have e₇ := requireTriggers_ok h₇
  have e₈ := require_ok h₈
  have e₉ := setAntiprompt_ok h₉
  have e₁₀ := setSamplers_ok h₁₀
  have e₁₁ := initSampler_ok h₁₁
  -- up to the biases only `banPhrases` was cleared
  have hmid : Inv srv (setLogitBias srv task.data (setReasoningBudget srv task.data s₇)) := by
    apply hinv.of_caches
    rw [e₇, e₆, e₅, e₄, e₃, e₂, e₁]
    rfl
  have hban : (setLogitBias srv task.data (setReasoningBudget srv task.data s₇)).slot.banPhrases =
      [] := by
    rw [e₇, e₆, e₅, e₄, e₃, e₂, e₁]
    rfl
  have hinv₈ : Inv srv s₈ := by
    rw [e₈]
    exact setBanPhrases_inv hmid
  have hinv₁₁ : Inv srv s₁₁ := by
    apply (setAllowlist_inv hinv₈ task.data).of_caches
    rw [e₁₁, e₁₀, e₉]
    rfl
  have hslot₈ := congrArg State.slot e₈
  rw [setBanPhrases_eq hban] at hslot₈
  -- the settings of the last state, in terms of those of the state before the biases
  have hlast : (setExpiringBiases srv task.data s₁₁).slot.settings =
      { s₁₁.slot.settings with
        elbParams := requestElb srv task.data s₁₁.slot.sparams.elbParams
        elbStates :=
          if requestElb srv task.data s₁₁.slot.sparams.elbParams = [] then []
          else freshElbStates srv (requestElb srv task.data s₁₁.slot.sparams.elbParams) } := by
    rw [← setExpiringBiases_eq hinv₁₁]
    rfl
  have hslot₁₁ : s₁₁.slot.settings =
      { s₈.slot.settings with
        antiprompt := (newStop task.data).getD s₈.slot.antiprompt
        samplersSequence :=
          (newSamplers srv task.data).getD s₈.slot.sparams.samplersSequence
        allowBiasess :=
          if s₈.slot.allowRulessPrev = [] then freshTable srv task.data
          else s₈.slot.allowBiasess } := by
    rw [← setAllowlist_table hinv₈, e₁₁, e₁₀, e₉]
    rfl
  have helb₁₁ : s₁₁.slot.sparams.elbParams = s₈.slot.sparams.elbParams := by
    rw [e₁₁, e₁₀, e₉]
    rfl
  have hphrases : newBanPhrases srv task.data
      (setLogitBias srv task.data (setReasoningBudget srv task.data s₇)).ban =
      (launched srv task.data s).banPhrases := by
    unfold newBanPhrases launched
    rw [(usePhrases_inv hmid).1]
  rw [hlast, hslot₁₁, helb₁₁, hslot₈, hphrases, setReasoningBudget_eq, setLogitBias,
    requestBiases_eq, e₇, e₆, e₅, e₄, e₃, e₂, e₁]
  rfl

/-- After two histories a task gets the same settings exactly when the slots agree on what it does
not write. -/
theorem settings_eq_iff (srv : ServerContext F E T) (h₁ h₂ : List (Event F)) (task : Task F)
    {t₁ t₂ : State F E T}
    (hl₁ : launchSlotWithTask srv task (reset (after srv h₁)) = .ok t₁)
    (hl₂ : launchSlotWithTask srv task (reset (after srv h₂)) = .ok t₂) :
    t₁.slot.settings = t₂.slot.settings ↔
      SameLeftovers srv task.data (after srv h₁).slot (after srv h₂).slot := by
  rw [launch_settings (after_inv srv h₁) hl₁, launch_settings (after_inv srv h₂) hl₂]
  exact launched_eq_iff srv task.data _ _

end

/-- A server whose tokens are bytes, without an allowlist. -/
def plainServer : ServerContext Int Unit Unit where
  sparams := { drySequenceBreakers := [[10]], samplersSequence := [1, 2] }
  banPhrases := [[65, 66]]
  allowRuless := []
  allowPieces := []
  allowKws := []
  nVocab := 256
  hasEosToken := true
  tokenEos := 0
  negInf := -1000
  ofInt := id
  truncate := id
  tokenize := fun text _ => text.map fun c => c.toNat
  jsonSchemaToGrammar := fun _ => none
  samplingTypesFromNames := fun _ => []
  samplingTypesFromChars := fun _ => []
  parseElb := fun _ => none
  elbTables := fun _ => []
  ruleBiases := fun _ => []
  maxBias := fun _ => 0
  sortByLength := id
  samplerInit := fun _ _ => true
  banPhrases_ne := by decide
  sortByLength_perm := fun _ => List.Perm.refl _

/-- A task without settings. -/
def plainTask : Task Int := ⟨{}, fun _ => true⟩

/-- A task that bans a string of its own. -/
def banningTask : Task Int := ⟨{ bannedStrings := some (.arr [.str [67]]) }, fun _ => true⟩

/-- A task with a stop word. -/
def stoppingTask : Task Int := ⟨{ stop := some (.arr [.str [88]]) }, fun _ => true⟩

/-- The banned strings of a request do not reach the next one. -/
theorem banningTask_settings : ∃ t₁ t₂,
    launchSlotWithTask plainServer plainTask (reset (after plainServer [])) = .ok t₁ ∧
      launchSlotWithTask plainServer plainTask
        (reset (after plainServer [.request banningTask])) = .ok t₂ ∧
      t₁.slot.settings = t₂.slot.settings := by
  refine ⟨_, _, rfl, rfl, (settings_eq_iff plainServer [] [.request banningTask] plainTask
    rfl rfl).mpr ?_⟩
  constructor
  all_goals first | exact .inr rfl | exact .inr fun _ _ => rfl | rfl

/-- The stop words of a request do. -/
theorem stopWords_leak : ∃ t₁ t₂,
    launchSlotWithTask plainServer plainTask (reset (after plainServer [])) = .ok t₁ ∧
      launchSlotWithTask plainServer plainTask
        (reset (after plainServer [.request stoppingTask])) = .ok t₂ ∧
      t₁.slot.settings ≠ t₂.slot.settings := by
  refine ⟨_, _, rfl, rfl, ?_⟩
  intro h
  have hstop := congrArg Settings.antiprompt h
  revert hstop
  decide

end PxqLlama.Server.Launch
