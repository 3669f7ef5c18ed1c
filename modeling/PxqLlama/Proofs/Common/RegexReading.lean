import PxqLlama.Common.RegexPartial
import PxqLlama.Lib.Attempt
import PxqLlama.Lib.Runs

/-!
# `Proofs.Common.RegexReading`: which patterns the rewriting gets through

The rewriting goes down into the groups of a pattern and comes back. What decides its end is less
than what it writes: for each open group, how many parts the last alternative has and whether one
before it has none. `Place.next` reads a pattern with a stack of these numbers, and `Place.Trouble`
are the places where the code does not end well:

* the end of the pattern or a `)`, with an alternative of the innermost group that has no part;
* the end of the pattern in a group;
* a class that ends in a backslash at the end of the pattern.

`process_follows` is the induction: a call of `process` is safe as far as the place that it returns
at is. So a pattern is rewritten or refused exactly when its reading comes to none of these places
(`ends_iff`).
-/

namespace PxqLlama.Common.Reading

open Attempt Machine

/-! ### The reading of a pattern -/

/-- An open group: whether an alternative before the last one has no part, and the number of parts
of the last one. -/
structure Level where
  blank : Bool := false
  parts : Nat := 0
deriving DecidableEq

def Level.Empty (l : Level) : Prop := l.blank = true ∨ l.parts = 0

instance (l : Level) : Decidable l.Empty := inferInstanceAs (Decidable (_ ∨ _))

/-- The innermost open group, the ones around it, and what is left of the pattern. -/
structure Place where
  level : Level := {}
  outer : List Level := []
  left : List Char
deriving DecidableEq

/-- One more part. -/
def Place.add (s : Place) (left : List Char) : Place :=
  { s with level := { s.level with parts := s.level.parts + 1 }, left }

/-- How many parts take the place of a repeated one. -/
def repetitions (min : Int) : Option Int → Nat
  | some max => min.toNat + (max - min).toNat
  | none => min.toNat + 1

/-- The next place, if the pattern goes on and nothing is thrown. -/
def Place.next (s : Place) : Option Place :=
  match s.left with
  | [] => none
  | c :: it =>
    if c = '[' then (classEnd it).toOption.map fun r => s.add r.2
    else if c = '*' ∨ c = '?' ∨ c = '+' then
      if s.level.parts = 0 then none else some { s with left := it }
    else if c = '{' then
      if s.level.parts = 0 then none
      else (parseRange it).toOption.map fun r => { s with
        level := { s.level with parts := s.level.parts - 1 + repetitions r.1 r.2.1 }
        left := r.2.2 }
    else if c = '(' then
      some { level := {}, outer := s.level :: s.outer, left := openGroup it }
    else if c = ')' then
      match s.outer with
      | [] => none
      | l :: outer => some { level := { l with parts := l.parts + 1 }, outer, left := it }
    else if c = '|' then
      some { s with level := { blank := s.level.blank || s.level.parts = 0 }, left := it }
    else if c = '\\' then
      some (if it = [] then { s with left := [] } else s.add it.tail)
    else some (s.add it)

/-- The text of a class that comes to a backslash at its end. -/
inductive RunsOff : List Char → Prop
  | last : RunsOff ['\\']
  | escape {it : List Char} (d : Char) (h : RunsOff it) : RunsOff ('\\' :: d :: it)
  | plain {c : Char} {it : List Char} (hc : c ≠ '\\') (hc' : c ≠ ']') (h : RunsOff it) :
      RunsOff (c :: it)

/-- The places where the code does not end well. -/
def Place.Trouble (s : Place) : Prop :=
  s.left = [] ∧ (s.level.Empty ∨ s.outer ≠ []) ∨
    s.left.head? = some ')' ∧ s.level.Empty ∨
    s.left.head? = some '[' ∧ RunsOff s.left.tail

/-! ### Parts of the loop -/

/-- The search for the end of a class finds it, throws at the end of the pattern, or runs off. -/
theorem classEnd_cases (it : List Char) :
    (∃ r, classEnd it = .ok r ∧ r.2.length ≤ it.length ∧ ¬ RunsOff it) ∨
      (∃ message, classEnd it = .error (.throws message) ∧ ¬ RunsOff it) ∨
      (classEnd it = .error .pastEnd ∧ RunsOff it) := by
  fun_induction classEnd it with
  | case1 => exact .inr (.inl ⟨_, rfl, nofun⟩)
  | case2 => exact .inr (.inr ⟨rfl, .last⟩)
  | case3 d it ih =>
    have hiff : RunsOff ('\\' :: d :: it) ↔ RunsOff it := by
      constructor
      · intro h
        cases h with
        | escape _ h => exact h
        | plain hc => exact absurd rfl hc
      · exact .escape d
    rw [hiff]
    rcases ih with ⟨r, hr, hle, hruns⟩ | ⟨message, hr, hruns⟩ | ⟨hr, hruns⟩
    · refine .inl ⟨_, by rw [hr]; rfl, ?_, hruns⟩
      simp only [List.length_cons]
      omega
    · exact .inr (.inl ⟨message, by rw [hr]; rfl, hruns⟩)
    · exact .inr (.inr ⟨by rw [hr]; rfl, hruns⟩)
  | case4 it hc =>
    refine .inl ⟨_, rfl, Nat.le_succ _, fun h => ?_⟩
    cases h with
    | plain _ hc' => exact hc' rfl
  | case5 c it hc hclose ih =>
    have hiff : RunsOff (c :: it) ↔ RunsOff it := by
      constructor
      · intro h
        cases h with
        | last => exact absurd rfl hc
        | escape => exact absurd rfl hc
        | plain _ _ h => exact h
      · exact .plain hc hclose
    rw [hiff]
    rcases ih with ⟨r, hr, hle, hruns⟩ | ⟨message, hr, hruns⟩ | ⟨hr, hruns⟩
    · exact .inl ⟨(c :: r.1, r.2), by rw [hr]; rfl, Nat.le_succ_of_le hle, hruns⟩
    · exact .inr (.inl ⟨message, by rw [hr]; rfl, hruns⟩)
    · exact .inr (.inr ⟨by rw [hr]; rfl, hruns⟩)

variable {it : List Char} {alternatives : List (List (List Char))} {sequence : List (List Char)}

theorem parseRange_length {r : Int × Option Int × List Char} (h : parseRange it = .ok r) :
    r.2.2.length ≤ it.length := by
  have hdrop : (it.dropWhile (· != '}')).length ≤ it.length :=
    (List.dropWhile_suffix _).length_le
  rw [parseRange] at h
  split at h
  · cases h
  · rename_i rest hrest
    rw [hrest, List.length_cons] at hdrop
    simp only at h
    split at h
    · cases h
    · obtain ⟨min, -, h⟩ := bind_eq_ok.mp h
      -- the last test is the same for both ways to the second number
      have hlast : ∀ max : Option Int, (if max.any (· < min.getD 0) then
          .error "Invalid repetition range in pattern" else .ok (min.getD 0, max, rest)
          : Except String (Int × Option Int × List Char)) = .ok r → r.2.2.length ≤ it.length := by
        intro max hmax
        split at hmax
        · cases hmax
        · cases hmax
          exact Nat.le_of_succ_le hdrop
      split at h
      · exact hlast _ h
      · obtain ⟨max, -, h⟩ := bind_eq_ok.mp h
        exact hlast _ h

theorem length_repeatPart (part : List Char) (min : Int) (max : Option Int) :
    (repeatPart part min max).length = repetitions min max := by
  cases max with
  | none => simp [repeatPart, repetitions]
  | some max => simp [repeatPart, repetitions]

theorem length_openGroup (it : List Char) : (openGroup it).length ≤ it.length := by
  rw [openGroup]
  split
  · rw [List.length_drop]
    exact Nat.sub_le _ _
  · exact Nat.le_refl _

/-- The alternatives of a group are written, or one of them has no part. -/
theorem joinAlternatives_cases (alternatives : List (List (List Char))) (it : List Char) :
    ([] ∉ alternatives ∧ ∃ res, joinAlternatives alternatives it = .ok (res, it)) ∨
      ([] ∈ alternatives ∧ joinAlternatives alternatives it = .error .opensGroups) := by
  have hmap : ([] ∉ alternatives ∧ ∃ res, alternatives.mapM reverseParts = .ok res) ∨
      ([] ∈ alternatives ∧ alternatives.mapM reverseParts = .error .opensGroups) := by
    induction alternatives with
    | nil => exact .inl ⟨nofun, [], rfl⟩
    | cons parts alternatives ih =>
      rw [List.mapM_cons, reverseParts]
      by_cases hempty : parts = []
      · rw [if_pos hempty]
        exact .inr ⟨hempty ▸ List.mem_cons_self, rfl⟩
      · rw [if_neg hempty]
        rcases ih with ⟨hmem, res, hres⟩ | ⟨hmem, hres⟩
        · left
          rw [hres]
          exact ⟨fun h => (List.mem_cons.mp h).elim (hempty ·.symm) hmem, _, rfl⟩
        · right
          rw [hres]
          exact ⟨List.mem_cons_of_mem _ hmem, rfl⟩
  rw [joinAlternatives]
  rcases hmap with ⟨hmem, res, hres⟩ | ⟨hmem, hres⟩
  · exact .inl ⟨hmem, _, by rw [hres]; rfl⟩
  · exact .inr ⟨hmem, by rw [hres]; rfl⟩

theorem exists_of_head? {c : Char} (h : it.head? = some c) : ∃ rest, it = c :: rest := by
  cases it with
  | nil => cases h
  | cons d rest => exact ⟨rest, by rw [Option.some.inj h]⟩

/-! ### A call of `process` -/

/-- The reading comes to no trouble. -/
abbrev EndsWell (s : Place) : Prop := Safe Place.next Place.Trouble s

/-- The level of a call with these alternatives. -/
def levelOf (alternatives : List (List (List Char))) (sequence : List (List Char)) : Level where
  blank := alternatives.any List.isEmpty
  parts := sequence.length

theorem levelOf_empty :
    (levelOf alternatives sequence).Empty ↔ [] ∈ alternatives ++ [sequence] := by
  rw [Level.Empty, levelOf, List.mem_append, List.mem_singleton]
  simp only [List.any_eq_true, List.isEmpty_iff, exists_eq_right, List.length_eq_zero_iff]
  exact or_congr_right eq_comm

/-- A call that is made at a place: it returns at a place behind, with parts in each alternative,
and what is left decides; it throws, and the place was safe; or it ends in trouble. -/
def Follows (s : Place) : Except Fault (List Char × List Char) → Prop
  | .ok r => ∃ l : Level, ¬ l.Empty ∧ r.2.length ≤ s.left.length ∧
      (r.2 = [] ∨ r.2.head? = some ')') ∧
      (EndsWell s ↔ EndsWell { level := l, outer := s.outer, left := r.2 })
  | .error (.throws _) => EndsWell s
  | .error .unfinished => False
  | .error _ => ¬ EndsWell s

section
variable {s t : Place} {x : Except Fault (List Char × List Char)}

theorem Follows.of_iff (hiff : EndsWell s ↔ EndsWell t) (houter : t.outer = s.outer)
    (hleft : t.left.length ≤ s.left.length) (h : Follows t x) : Follows s x := by
  cases x with
  | ok r =>
    obtain ⟨l, hl, hlen, hends, hrest⟩ := h
    exact ⟨l, hl, Nat.le_trans hlen hleft, hends, houter ▸ hiff.trans hrest⟩
  | error fault =>
    cases fault with
    | throws message => exact hiff.mpr h
    | unfinished => exact h
    | pastEnd => exact fun hs => h (hiff.mp hs)
    | opensGroups => exact fun hs => h (hiff.mp hs)

/-- A failure of an inner call is one of the call around it. -/
theorem Follows.of_error {fault : Fault} (hiff : EndsWell s ↔ EndsWell t)
    (h : Follows t (.error fault)) : Follows s (.error fault) := by
  cases fault with
  | throws message => exact hiff.mpr h
  | unfinished => exact h
  | pastEnd => exact fun hs => h (hiff.mp hs)
  | opensGroups => exact fun hs => h (hiff.mp hs)

theorem endsWell_iff (hnext : s.next = some t) (hgood : ¬ s.Trouble) :
    EndsWell s ↔ EndsWell t :=
  (safe_iff_next hnext).trans (and_iff_right hgood)

theorem endsWell_of_stopped (hnext : s.next = none) (hgood : ¬ s.Trouble) : EndsWell s :=
  (safe_iff_stopped hnext).mpr hgood

/-- In front of another character there is no trouble. -/
theorem not_trouble {c : Char} {it : List Char} (hleft : s.left = c :: it) (hclose : c ≠ ')')
    (hclass : c ≠ '[') : ¬ s.Trouble := by
  rw [Place.Trouble, hleft]
  simp [hclose, hclass]

end

/-- The end of a call. -/
theorem joinAlternatives_follows {alternatives : List (List (List Char))}
    {sequence : List (List Char)} {outer : List Level} {it : List Char}
    (hends : it = [] ∨ it.head? = some ')') :
    Follows { level := levelOf alternatives sequence, outer, left := it }
      (joinAlternatives (alternatives ++ [sequence]) it) := by
  rcases joinAlternatives_cases (alternatives ++ [sequence]) it with ⟨hmem, res, hres⟩ |
    ⟨hmem, hres⟩
  · rw [hres]
    exact ⟨_, fun h => hmem (levelOf_empty.mp h), Nat.le_refl _, hends, Iff.rfl⟩
  · rw [hres]
    have hempty := levelOf_empty.mpr hmem
    apply not_safe
    rcases hends with hnil | hclose
    · exact .inl ⟨hnil, .inl hempty⟩
    · exact .inr (.inl ⟨hclose, hempty⟩)

section
variable {fuel : Nat} {alternatives : List (List (List Char))} {sequence : List (List Char)}
  {outer : List Level} {c : Char} {it : List Char}

/-- What the calls with less fuel do. -/
def CallsFollow (fuel : Nat) : Prop :=
  ∀ (alternatives : List (List (List Char))) (sequence : List (List Char)) (outer : List Level)
    (it : List Char), it.length < fuel →
    Follows { level := levelOf alternatives sequence, outer, left := it }
      (process fuel alternatives sequence it)

/-- The rest of the loop, one part further. -/
theorem CallsFollow.add (ih : CallsFollow fuel) (whole : List Char) (hfuel : it.length < fuel)
    (part : List Char) :
    Follows (Place.add { level := levelOf alternatives sequence, outer, left := whole } it)
      (process fuel alternatives (sequence ++ [part]) it) := by
  have h := ih alternatives (sequence ++ [part]) outer it hfuel
  rw [levelOf, List.length_append, List.length_singleton] at h
  exact h

/-- The case of a character class. -/
theorem class_follows (ih : CallsFollow fuel) (hfuel : it.length < fuel) :
    Follows { level := levelOf alternatives sequence, outer, left := '[' :: it }
      (do
        let r ← classEnd it
        process fuel alternatives (sequence ++ ['[' :: r.1]) r.2) := by
  have hgood : ¬ RunsOff it → ¬ Place.Trouble
      { level := levelOf alternatives sequence, outer, left := '[' :: it } := by
    rintro hruns (h | h | h)
    · cases h.1
    · cases h.1
    · exact hruns h.2
  rcases classEnd_cases it with ⟨r, hr, hle, hruns⟩ | ⟨message, hr, hruns⟩ | ⟨hr, hruns⟩
  · have hnext : Place.next { level := levelOf alternatives sequence, outer, left := '[' :: it }
        = some (Place.add
          { level := levelOf alternatives sequence, outer, left := '[' :: it } r.2) := by
      show (classEnd it).toOption.map _ = _
      rw [hr]
      rfl
    rw [hr]
    exact .of_iff (endsWell_iff hnext (hgood hruns)) rfl (Nat.le_succ_of_le hle)
      (ih.add _ (Nat.lt_of_le_of_lt hle hfuel) ('[' :: r.1))
  · have hnext : Place.next { level := levelOf alternatives sequence, outer, left := '[' :: it }
        = none := by
      show (classEnd it).toOption.map _ = _
      rw [hr]
      rfl
    rw [hr]
    exact endsWell_of_stopped hnext (hgood hruns)
  · rw [hr]
    exact not_safe (.inr (.inr ⟨rfl, hruns⟩))

theorem next_quantifier (outer : List Level) (it : List Char) (hc : c = '*' ∨ c = '?' ∨ c = '+')
    {level : Level} (hparts : level.parts ≠ 0) :
    Place.next { level, outer, left := c :: it } = some { level, outer, left := it } := by
  rcases hc with rfl | rfl | rfl
  · exact if_neg hparts
  · exact if_neg hparts
  · exact if_neg hparts

/-- The case of a quantifier. -/
theorem quantifier_follows (hc : c = '*' ∨ c = '?' ∨ c = '+') (ih : CallsFollow fuel)
    (hfuel : it.length < fuel) :
    Follows { level := levelOf alternatives sequence, outer, left := c :: it }
      (match sequence.getLast? with
      | none => .error (.throws "Quantifier without preceding element")
      | some part =>
        process fuel alternatives (sequence.dropLast ++ [part ++ [c]])
          (if c = '*' ∧ it.head? = some '?' then it.tail else it)) := by
  have hgood : ¬ Place.Trouble { level := levelOf alternatives sequence, outer, left := c :: it } :=
    not_trouble rfl (by rcases hc with rfl | rfl | rfl <;> decide)
      (by rcases hc with rfl | rfl | rfl <;> decide)
  cases hlast : sequence.getLast? with
  | none =>
    obtain rfl := List.getLast?_eq_none_iff.mp hlast
    refine endsWell_of_stopped ?_ hgood
    rcases hc with rfl | rfl | rfl <;> rfl
  | some part =>
    obtain ⟨front, rfl⟩ : ∃ front, sequence = front ++ [part] := List.getLast?_eq_some_iff.mp hlast
    have hlevel : levelOf alternatives ((front ++ [part]).dropLast ++ [part ++ [c]])
        = levelOf alternatives (front ++ [part]) := by
      rw [levelOf, levelOf, List.dropLast_concat, List.length_append, List.length_append]
      rfl
    have hparts : (levelOf alternatives (front ++ [part])).parts ≠ 0 := by
      simp [levelOf]
    have hone := endsWell_iff (next_quantifier outer it hc hparts) hgood
    show Follows _ (process _ _ _ _)
    split
    · -- a `?` behind a star is read with it
      rename_i hstar
      obtain ⟨rest, rfl⟩ := exists_of_head? hstar.2
      have htwo := endsWell_iff (next_quantifier outer rest (c := '?') (.inr (.inl rfl))
        hparts) (not_trouble rfl (by decide) (by decide))
      have h := ih alternatives ((front ++ [part]).dropLast ++ [part ++ [c]]) outer rest
        (Nat.lt_of_succ_lt hfuel)
      rw [hlevel] at h
      exact .of_iff (hone.trans htwo) rfl (by simp; omega) h
    · have h := ih alternatives ((front ++ [part]).dropLast ++ [part ++ [c]]) outer it hfuel
      rw [hlevel] at h
      exact .of_iff hone rfl (Nat.le_succ _) h

/-- The case of a repetition range. -/
theorem range_follows (ih : CallsFollow fuel) (hfuel : it.length < fuel) :
    Follows { level := levelOf alternatives sequence, outer, left := '{' :: it }
      (match sequence.getLast? with
      | none => .error (.throws "Repetition without preceding element")
      | some part => do
        let r ← throwing (parseRange it)
        process fuel alternatives (sequence.dropLast ++ repeatPart part r.1 r.2.1) r.2.2) := by
  have hgood : ¬ Place.Trouble
      { level := levelOf alternatives sequence, outer, left := '{' :: it } :=
    not_trouble rfl (by decide) (by decide)
  cases hlast : sequence.getLast? with
  | none =>
    obtain rfl := List.getLast?_eq_none_iff.mp hlast
    exact endsWell_of_stopped rfl hgood
  | some part =>
    obtain ⟨front, rfl⟩ : ∃ front, sequence = front ++ [part] := List.getLast?_eq_some_iff.mp hlast
    have hparts : (levelOf alternatives (front ++ [part])).parts ≠ 0 := by
      simp [levelOf]
    have hnext : Place.next
          { level := levelOf alternatives (front ++ [part]), outer, left := '{' :: it }
        = (parseRange it).toOption.map fun r =>
          { level := { blank := alternatives.any List.isEmpty
                       parts := (front ++ [part]).length - 1 + repetitions r.1 r.2.1 }
            outer, left := r.2.2 } := if_neg hparts
    cases hrange : parseRange it with
    | error message =>
      rw [hrange] at hnext
      exact endsWell_of_stopped hnext hgood
    | ok r =>
      rw [hrange] at hnext
      have hle := parseRange_length hrange
      have h := ih alternatives ((front ++ [part]).dropLast ++ repeatPart part r.1 r.2.1) outer
        r.2.2 (Nat.lt_of_le_of_lt hle hfuel)
      rw [levelOf, List.length_append, List.length_dropLast, length_repeatPart] at h
      exact .of_iff (endsWell_iff hnext hgood) rfl (Nat.le_succ_of_le hle) h

/-- The case of a group, with its own call. -/
theorem group_follows (ih : CallsFollow fuel) (hfuel : it.length < fuel) :
    Follows { level := levelOf alternatives sequence, outer, left := '(' :: it }
      (do
        let sub ← process fuel [] [] (openGroup it)
        match sub.2 with
        | [] => .error .pastEnd
        | d :: it =>
          if d = ')' then
            process fuel alternatives (sequence ++ [['(', '?', ':'] ++ (sub.1 ++ [')'])]) it
          else .error (.throws "Unmatched '(' in pattern")) := by
  have hopen := endsWell_iff (s := { level := levelOf alternatives sequence, outer
                                     left := '(' :: it }) rfl
    (not_trouble rfl (by decide) (by decide))
  have hlen := length_openGroup it
  have hinner := ih [] [] (levelOf alternatives sequence :: outer) (openGroup it)
    (Nat.lt_of_le_of_lt hlen hfuel)
  cases hsub : process fuel [] [] (openGroup it) with
  | error fault =>
    rw [hsub] at hinner
    exact .of_error hopen hinner
  | ok sub =>
    rw [hsub] at hinner
    obtain ⟨l, hl, hle, hends, hiff⟩ := hinner
    obtain ⟨text, rest⟩ := sub
    have hiff := hopen.trans hiff
    rcases hends with hnil | hclose
    · -- the pattern ends in the group
      have hrest : rest = [] := hnil
      subst hrest
      intro hs
      exact not_safe (.inl ⟨rfl, .inr (List.cons_ne_nil _ _)⟩) (hiff.mp hs)
    · obtain ⟨rest', rfl⟩ := exists_of_head? hclose
      have hgood : ¬ Place.Trouble
          { level := l, outer := levelOf alternatives sequence :: outer, left := ')' :: rest' } := by
        rintro (h | h | h)
        · cases h.1
        · exact hl h.2
        · cases h.1
      have hclosed := endsWell_iff rfl hgood
      have hle : rest'.length + 1 ≤ (openGroup it).length := hle
      exact .of_iff (hiff.trans hclosed) rfl (by simp only [List.length_cons]; omega)
        (ih.add [] (by omega) (['(', '?', ':'] ++ (text ++ [')'])))

/-- The case of a new alternative. -/
theorem bar_follows (ih : CallsFollow fuel) (hfuel : it.length < fuel) :
    Follows { level := levelOf alternatives sequence, outer, left := '|' :: it }
      (process fuel (alternatives ++ [sequence]) [] it) := by
  have hnext : Place.next { level := levelOf alternatives sequence, outer, left := '|' :: it }
      = some { level := levelOf (alternatives ++ [sequence]) [], outer, left := it } := by
    have hblank : (alternatives ++ [sequence]).any List.isEmpty
        = (alternatives.any List.isEmpty || decide (sequence.length = 0)) := by
      rw [List.any_append, List.any_cons, List.any_nil, Bool.or_false]
      cases sequence <;> rfl
    rw [levelOf, levelOf, hblank]
    rfl
  exact .of_iff (endsWell_iff hnext (not_trouble rfl (by decide) (by decide))) rfl (Nat.le_succ _)
    (ih (alternatives ++ [sequence]) [] outer it hfuel)

/-- The case of an escape. -/
theorem backslash_follows (ih : CallsFollow fuel) (hfuel : it.length < fuel) :
    Follows { level := levelOf alternatives sequence, outer, left := '\\' :: it }
      (match it.head? with
      | none => process fuel alternatives sequence []
      | some d => process fuel alternatives (sequence ++ [['\\', d]]) it.tail) := by
  have hgood : ¬ Place.Trouble
      { level := levelOf alternatives sequence, outer, left := '\\' :: it } :=
    not_trouble rfl (by decide) (by decide)
  cases it with
  | nil => exact .of_iff (endsWell_iff rfl hgood) rfl (Nat.le_succ _) (ih _ _ _ _ hfuel)
  | cons d it =>
    exact .of_iff (endsWell_iff rfl hgood) rfl (Nat.le_succ_of_le (Nat.le_succ _))
      (ih.add _ (Nat.lt_of_succ_lt hfuel) ['\\', d])

end

/-- Induction on the fuel. An inner call starts at the place behind its bracket, one level deeper,
and the rest of the loop at the place behind it. -/
theorem process_follows {fuel : Nat} {outer : List Level} (hfuel : it.length < fuel) :
    Follows { level := levelOf alternatives sequence, outer, left := it }
      (process fuel alternatives sequence it) := by
  induction fuel generalizing alternatives sequence outer it with
  | zero => omega
  | succ fuel ih =>
    have ih : CallsFollow fuel := fun _ _ _ _ h => ih h
    cases it with
    | nil => exact joinAlternatives_follows (.inl rfl)
    | cons c it =>
      rw [List.length_cons, Nat.add_lt_add_iff_right] at hfuel
      rw [process]
      -- One case for each character that means something, in the order of the loop.
      split
      · rename_i hc
        subst hc
        exact class_follows ih hfuel
      · rename_i hclass
        split
        · rename_i hc
          exact quantifier_follows hc ih hfuel
        · rename_i hquant
          split
          · rename_i hc
            subst hc
            exact range_follows ih hfuel
          · rename_i hrange
            split
            · rename_i hc
              subst hc
              exact group_follows ih hfuel
            · rename_i hopen
              split
              · rename_i hc
                subst hc
                exact joinAlternatives_follows (.inr rfl)
              · rename_i hclose
                split
                · rename_i hc
                  subst hc
                  exact bar_follows ih hfuel
                · rename_i hbar
                  split
                  · rename_i hc
                    subst hc
                    exact backslash_follows ih hfuel
                  · rename_i hplain
                    have hnext : Place.next
                          { level := levelOf alternatives sequence, outer, left := c :: it }
                        = some (Place.add
                          { level := levelOf alternatives sequence, outer, left := c :: it } it) := by
                      simp only [Place.next, hclass, hquant, hrange, hopen, hclose, hbar, hplain,
                        if_false]
                    exact .of_iff (endsWell_iff hnext (not_trouble rfl hclose hclass)) rfl
                      (Nat.le_succ _) (ih.add _ hfuel [c])

/-- The code got to an end: it returned, or it threw. -/
def Ends {α : Type} (x : Except Fault α) : Prop :=
  (∃ a, x = .ok a) ∨ ∃ message, x = .error (.throws message)

/-- A pattern is rewritten or refused exactly when its reading comes to no trouble. -/
theorem ends_iff (pattern : List Char) :
    Ends (regexToReversedPartialRegex pattern) ↔
      ∀ s, Reached Place.next { left := pattern } s → ¬ s.Trouble := by
  have hfollows : Follows { left := pattern } (process (pattern.length + 1) [] [] pattern) :=
    process_follows (Nat.lt_succ_self pattern.length)
  show _ ↔ EndsWell _
  rw [regexToReversedPartialRegex]
  cases hprocess : process (pattern.length + 1) [] [] pattern with
  | error fault =>
    rw [hprocess] at hfollows
    cases fault with
    | throws message => exact ⟨fun _ => hfollows, fun _ => .inr ⟨message, rfl⟩⟩
    | unfinished => exact absurd hfollows id
    | pastEnd => exact ⟨fun h => (by rcases h with ⟨_, h⟩ | ⟨_, h⟩ <;> cases h), (absurd · hfollows)⟩
    | opensGroups =>
      exact ⟨fun h => (by rcases h with ⟨_, h⟩ | ⟨_, h⟩ <;> cases h), (absurd · hfollows)⟩
  | ok r =>
    rw [hprocess] at hfollows
    obtain ⟨l, hl, -, hends, hiff⟩ := hfollows
    obtain ⟨text, rest⟩ := r
    have hsafe : EndsWell { level := l, outer := [], left := rest } := by
      rcases hends with hnil | hclose
      · obtain rfl : rest = [] := hnil
        refine endsWell_of_stopped rfl ?_
        rintro (h | h | h)
        · exact h.2.elim hl (fun hne => hne rfl)
        · cases h.1
        · cases h.1
      · obtain ⟨rest', rfl⟩ := exists_of_head? hclose
        refine endsWell_of_stopped rfl ?_
        rintro (h | h | h)
        · cases h.1
        · exact hl h.2
        · cases h.1
    refine ⟨fun _ => hiff.mpr hsafe, fun _ => ?_⟩
    show Ends (if rest ≠ [] then _ else _)
    split
    · exact .inr ⟨_, rfl⟩
    · exact .inl ⟨_, rfl⟩

/-- A `|` at the end of a pattern opens an alternative without parts. -/
theorem not_ends_trailing_bar : ¬ ∀ pattern, Ends (regexToReversedPartialRegex pattern) := by
  intro h
  have hfault : regexToReversedPartialRegex ['a', '|'] = .error .opensGroups := by decide
  rcases h ['a', '|'] with ⟨_, hok⟩ | ⟨_, hthrows⟩
  · rw [hfault] at hok
    cases hok
  · rw [hfault] at hthrows
    cases hthrows

end PxqLlama.Common.Reading
