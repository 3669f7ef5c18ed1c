import PxqLlama.Common.SchemaPattern
import PxqLlama.Proofs.Common.RegexReading

/-!
# `Proofs.Common.SchemaPattern`: which patterns are converted

Whether `_visit_pattern` returns depends on less than what it writes: on what is left of the
pattern, on whether the group being read has an item yet, and on how many groups are open.
`Place.step` reads a pattern with these. It comes to trouble at

* a `]` or `}` where an item should begin: the branch for literals reads nothing, and the loop goes
  on for ever;
* a quantifier or a repetition in a group without an item, where `seq.back()` is called;
* a repetition whose number is no `int`. Only the other exception of `std::stoi` is caught.

`transform_follows` is the induction: a call is read well as far as the place that it returns at is.
-/

namespace PxqLlama.Common.SchemaPattern

open Machine Reading

/-! ### The reading of a pattern -/

/-- What is left, whether the group has an item, and how many groups are open around it. -/
structure Place where
  left : Text
  filled : Bool
  depth : Nat

inductive Step
  | on (t : Place)
  | done
  | trouble

/-- The end of a group, which is an item of the one around it. -/
def Place.close (s : Place) (left : Text) : Step :=
  match s.depth with
  | 0 => .done
  | depth + 1 => .on { left, filled := true, depth }

/-- A quantifier needs an item. -/
def Place.repeated (s : Place) (left : Text) : Step :=
  if s.filled then .on { s with left } else .trouble

def Place.step (s : Place) : Step :=
  match s.left with
  | [] => .done
  | c :: left =>
    if c = '(' then
      if isLookaround left then .on { s with left := skipGroup 1 left }
      else .on { left := openGroup left, filled := false, depth := s.depth + 1 }
    else if c = ')' then s.close left
    else if c = '[' then .on { s with left := (squareBrackets left).2.getD [], filled := true }
    else if c = '*' ∨ c = '+' ∨ c = '?' then s.repeated left
    else if c = '{' then
      match times ((curlyBrackets left).splitOn ',') with
      | .error .invalidArgument => s.close (behindCurly left)
      | .error .outOfRange => .trouble
      | .ok _ => s.repeated (behindCurly left)
    else if c = ']' ∨ c = '}' then .trouble
    else if c = '\\' then .on { s with left := left.tail, filled := true }
    else .on { s with left, filled := true }

def Place.next (s : Place) : Option Place :=
  match s.step with
  | .on t => some t
  | _ => none

/-- The reading comes to no trouble. -/
abbrev EndsWell (s : Place) : Prop := Safe Place.next (Place.step · = .trouble) s

section
variable {s t : Place} {left left' : Text}

theorem endsWell_on (h : s.step = .on t) : EndsWell s ↔ EndsWell t := by
  have hnext : s.next = some t := by rw [Place.next, h]
  have hgood : s.step ≠ .trouble := by
    rw [h]
    exact Step.noConfusion
  exact (safe_iff_next hnext).trans (and_iff_right hgood)

theorem endsWell_done (h : s.step = .done) : EndsWell s := by
  have hnext : s.next = none := by rw [Place.next, h]
  refine (safe_iff_stopped hnext).mpr ?_
  rw [h]
  exact Step.noConfusion

/-- What decides when the call of the innermost group has returned. -/
def Returned (s : Place) (left : Text) : Prop :=
  s.depth = 0 ∨ EndsWell { left, filled := true, depth := s.depth - 1 }

theorem endsWell_close (h : s.step = s.close left) : EndsWell s ↔ Returned s left := by
  obtain ⟨whole, filled, depth⟩ := s
  cases depth with
  | zero => exact iff_of_true (endsWell_done h) (.inl rfl)
  | succ depth =>
    rw [endsWell_on h, Returned, Nat.add_sub_cancel]
    exact (or_iff_right (Nat.succ_ne_zero depth)).symm

/-- An item is read. -/
def ReadsTo (left left' : Text) : Prop :=
  left'.length < left.length ∧ ∀ filled depth,
    EndsWell { left, filled, depth } ↔ EndsWell { left := left', filled := true, depth }

theorem ReadsTo.of_step (hlen : left'.length < left.length)
    (h : ∀ filled depth, Place.step { left, filled, depth }
      = .on { left := left', filled := true, depth }) : ReadsTo left left' :=
  ⟨hlen, fun filled depth => endsWell_on (h filled depth)⟩

theorem readsTo_plain {c : Char} (hc : c ∉ NON_LITERAL_SET) (hb : c ≠ '\\') :
    ReadsTo (c :: left) left := by
  refine .of_step (Nat.lt_succ_self _) fun filled depth => ?_
  simp only [NON_LITERAL_SET, List.mem_cons, not_or] at hc
  simp [Place.step, hc, hb]

theorem readsTo_backslash : ReadsTo ('\\' :: left) left.tail :=
  .of_step (Nat.lt_succ_of_le (List.length_tail ▸ Nat.sub_le _ _)) fun _ _ => rfl

/-! ### Parts of the loop -/

theorem length_skipGroup (depth : Nat) (left : Text) :
    (skipGroup depth left).length ≤ left.length := by
  fun_induction skipGroup depth left with
  | case1 => exact Nat.le_refl _
  | case2 => exact Nat.le_refl _
  | case3 => exact Nat.zero_le _
  | case4 depth d left ih => exact Nat.le_trans ih (Nat.le_add_right _ 2)
  | case5 depth c d left hc ih => exact Nat.le_succ_of_le ih

theorem length_squareBrackets (left : Text) :
    ((squareBrackets left).2.getD []).length ≤ left.length := by
  fun_induction squareBrackets left with
  | case1 => exact Nat.le_refl _
  | case2 => exact Nat.zero_le _
  | case3 => exact Nat.zero_le _
  | case4 d left => exact Nat.le_succ _
  | case5 d left _ ih => exact Nat.le_trans ih (Nat.le_add_right _ 2)
  | case6 c d left _ _ ih => exact Nat.le_succ_of_le ih

theorem length_behindCurly (left : Text) : (behindCurly left).length ≤ left.length := by
  rw [behindCurly, List.length_tail]
  exact Nat.le_trans (Nat.sub_le _ _) (List.dropWhile_suffix _).length_le

theorem ReadsTo.literalRun {literal : Text} {p : Prop} (h : ReadsTo left left')
    (hne : literal ≠ [])
    (ih : literalRun literal left' = (literal, left') ∧ p ∨ (literalRun literal left').1 ≠ [] ∧
      ReadsTo left' (literalRun literal left').2) :
    (literalRun literal left').1 ≠ [] ∧ ReadsTo left (literalRun literal left').2 := by
  rcases ih with ⟨hstays, -⟩ | ⟨hne', hlen, hiff⟩
  · rw [hstays]
    exact ⟨hne, h⟩
  · exact ⟨hne', Nat.lt_trans hlen h.1, fun filled depth => (h.2 filled depth).trans (hiff true depth)⟩

/-- Each character of a literal is read. Nothing is read only in front of a character of the
table, or behind another one. -/
theorem literalRun_reads (literal left : Text) :
    literalRun literal left = (literal, left) ∧
        (literal = [] → ∀ c ∈ left.head?, c ∈ NON_LITERAL_SET) ∨
      (literalRun literal left).1 ≠ [] ∧ ReadsTo left (literalRun literal left).2 := by
  fun_induction literalRun literal left with
  | case1 => exact .inl ⟨rfl, fun _ => by simp⟩
  | case2 => exact .inr ⟨by simp, readsTo_plain (by decide) (by decide)⟩
  | case3 literal c _ hc =>
    left
    simpa using fun _ => hc
  | case4 literal c _ hc =>
    right
    refine ⟨by simp, ?_⟩
    by_cases hb : c = '\\'
    · rw [hb]
      exact readsTo_backslash
    · exact readsTo_plain hc hb
  | case5 literal next left ih =>
    refine .inr (ReadsTo.literalRun readsTo_backslash ?_ ih)
    split <;> simp
  | case6 literal next left _ ih =>
    exact .inr ((readsTo_plain (by decide) (by decide)).literalRun (by simp) ih)
  | case7 literal c next left hb _ hc ih =>
    exact .inr ((readsTo_plain hc.1 hb).literalRun (by simp) ih)
  | case8 literal c next left _ _ hc =>
    refine .inl ⟨rfl, fun hnil d hd => ?_⟩
    obtain rfl := Option.some.inj hd
    by_contra hmem
    exact hc ⟨hmem, .inl hnil⟩

end

/-! ### Rules -/

theorem toDigits_injective {m n : Nat} (h : Nat.toDigits 10 m = Nat.toDigits 10 n) : m = n := by
  have hvalue := congrArg (Nat.ofDigitChars 10 · 0) h
  simpa only [Nat.ofDigitChars_ten_toDigits] using hvalue

/-- There are more names to try than rules. -/
theorem exists_isFree (c : Converter) (rule esc : Text) :
    ∃ key, (ruleKeys esc (c.rules.length + 1)).find? (c.isFree rule) = some key := by
  cases hfind : (ruleKeys esc (c.rules.length + 1)).find? (c.isFree rule) with
  | some key => exact ⟨key, rfl⟩
  | none =>
    have hnodup : ((List.range (c.rules.length + 1)).map fun i => esc ++ Nat.toDigits 10 i).Nodup :=
      List.nodup_range.map fun i j h => toDigits_injective (List.append_cancel_left h)
    have hsub : ((List.range (c.rules.length + 1)).map fun i => esc ++ Nat.toDigits 10 i)
        ⊆ c.rules.map Prod.fst := by
      intro key hkey
      by_contra hmem
      have hlookup : c.rules.lookup key = none := by
        refine List.lookup_eq_none_iff.mpr fun entry hentry => ?_
        simp only [bne_iff_ne]
        rintro rfl
        exact hmem (List.mem_map_of_mem hentry)
      refine List.find?_eq_none.mp hfind key (List.mem_cons_of_mem _ hkey) ?_
      rw [Converter.isFree, hlookup]
      rfl
    have hle := (List.subperm_of_subset hnodup hsub).length_le
    rw [List.length_map, List.length_map, List.length_range] at hle
    exact absurd hle (Nat.not_succ_le_self _)

theorem addRule_run (c : Converter) (name rule : Text) :
    ∃ key, (addRule name rule).run.run c
      = (.ok key, { c with rules := (key, rule) :: c.rules }) := by
  obtain ⟨key, hkey⟩ := exists_isFree c rule (escName name)
  refine ⟨key, ?_⟩
  rw [addRule, Throwing.run_bind, show (get : ConvertM Converter).run.run c = (.ok c, c) from rfl]
  simp only [hkey]
  rfl

theorem getDot_ok (c : Converter) : ∃ key c', getDot.run.run c = (.ok key, c') := by
  obtain ⟨key, hkey⟩ := addRule_run c _ _
  exact ⟨key, _, hkey⟩

theorem subRule_ok (name sub : Text) (c : Converter) :
    ∃ id c', (subRule name sub).run.run c = (.ok id, c') := by
  rw [subRule, Throwing.run_bind, show (get : ConvertM Converter).run.run c = (.ok c, c) from rfl]
  simp only
  cases c.subRuleIds.lookup sub with
  | some id => exact ⟨id, c, rfl⟩
  | none =>
    obtain ⟨key, hkey⟩ := addRule_run c (name ++ '-' :: Nat.toDigits 10 (c.subRuleIds.length + 1))
      sub
    simp only [Throwing.run_bind, hkey]
    exact ⟨key, _, rfl⟩

theorem repeatedItem_ok (name : Text) (last : LiteralOrRule) (c : Converter) :
    ∃ item c', (repeatedItem name last).run.run c = (.ok item, c') := by
  rw [repeatedItem]
  split
  · exact ⟨_, c, rfl⟩
  · exact subRule_ok name last.1 c

/-! ### A call of `transform` -/

/-- A call that is made at a place. It returns behind it, and what is left there decides; what it
throws is trouble, if only the fuel was enough. -/
def Follows (fuel : Nat) (s : Place) (m : ConvertM (LiteralOrRule × Text)) : Prop :=
  Keeps (fun _ => True) m
    (fun r => r.2.length ≤ s.left.length ∧ (EndsWell s ↔ Returned s r.2))
    (fun fault => (fault = .noFuel → s.left.length < fuel) → ¬ EndsWell s)

section
variable {fuel : Nat} {s t : Place} {α : Type} {f : α → ConvertM (LiteralOrRule × Text)}
  {m : ConvertM (LiteralOrRule × Text)} {m' : ConvertM α}

/-- The rest of the call, from the next place on. -/
theorem Follows.on (h : Follows fuel t m) (hiff : EndsWell s ↔ EndsWell t)
    (hlen : t.left.length < s.left.length) (hdepth : t.depth = s.depth) :
    Follows (fuel + 1) s m := by
  refine Keeps.imp h ?_ ?_
  · rintro r ⟨hle, hends⟩
    rw [hiff, Returned, ← hdepth]
    exact ⟨Nat.le_trans hle (Nat.le_of_lt hlen), hends⟩
  · intro fault hfails hfuel
    rw [hiff]
    exact hfails fun h => Nat.lt_of_lt_of_le hlen (Nat.le_of_lt_succ (hfuel h))

theorem Follows.after (h : ∀ a, Follows fuel s (f a))
    (hok : ∀ c, ∃ a c', m'.run.run c = (.ok a, c')) : Follows fuel s (m' >>= f) :=
  Keeps.bind (Keeps.of_ok hok) fun a _ => h a

theorem Follows.pure {rule : LiteralOrRule} {left : Text} (hlen : left.length ≤ s.left.length)
    (h : EndsWell s ↔ Returned s left) : Follows fuel s (pure (rule, left)) :=
  Keeps.pure ⟨hlen, h⟩

theorem Follows.throw {fault : Fault} (h : s.step = .trouble) : Follows fuel s (throw fault) :=
  Keeps.throw fun _ => not_safe h

end

theorem reportIf_ok (holds : Bool) (message : String) (c : Converter) :
    ∃ u c', (reportIf holds message).run.run c = (.ok u, c') := ⟨(), _, rfl⟩

section
variable {fuel start depth : Nat} {name sub : Text} {seq : List LiteralOrRule} {c : Char}
  {left left' : Text} {s : Place}

/-- What the calls with less fuel do. -/
def CallsFollow (fuel : Nat) (name sub : Text) : Prop :=
  ∀ start seq left depth, Follows fuel { left, filled := !seq.isEmpty, depth }
    (transform fuel name sub start seq left)

/-- The rest of the loop, behind an item. -/
theorem CallsFollow.item (ih : CallsFollow fuel name sub) (seq : List LiteralOrRule)
    (item : LiteralOrRule) (hlen : left.length < s.left.length)
    (hiff : EndsWell s ↔ EndsWell { left, filled := true, depth := s.depth }) :
    Follows (fuel + 1) s (transform fuel name sub start (seq ++ [item]) left) := by
  have hrest := ih start (seq ++ [item]) left s.depth
  have hfilled : (!(seq ++ [item]).isEmpty) = true := by simp
  rw [hfilled] at hrest
  exact hrest.on hiff hlen rfl

theorem CallsFollow.readsTo (ih : CallsFollow fuel name sub) (item : LiteralOrRule)
    {filled : Bool} (h : ReadsTo left left') :
    Follows (fuel + 1) { left, filled, depth }
      (transform fuel name sub start (seq ++ [item]) left') :=
  ih.item seq item h.1 (h.2 filled depth)

/-- The rest of the loop, behind a quantifier. -/
theorem CallsFollow.repeated (ih : CallsFollow fuel name sub) (hlen : left'.length < left.length)
    (hstep : ∀ filled, Place.step { left, filled, depth }
      = Place.repeated { left, filled, depth } left')
    {g : LiteralOrRule → ConvertM (LiteralOrRule × Text)}
    (hg : ∀ last, (∀ item, Follows (fuel + 1) { left, filled := true, depth }
        (transform fuel name sub start (seq.dropLast ++ [item]) left')) →
      Follows (fuel + 1) { left, filled := true, depth } (g last)) :
    Follows (fuel + 1) { left, filled := !seq.isEmpty, depth }
      (match seq.getLast? with
      | none => throw .backOfEmpty
      | some last => g last) := by
  cases hlast : seq.getLast? with
  | none =>
    obtain rfl := List.getLast?_eq_none_iff.mp hlast
    exact .throw (hstep false)
  | some last =>
    have hfilled : (!seq.isEmpty) = true := by
      obtain ⟨front, rfl⟩ := List.getLast?_eq_some_iff.mp hlast
      simp
    rw [hfilled]
    exact hg last fun item => ih.item _ item hlen (endsWell_on (hstep true))

/-- The call of a group returns one level up, behind an item. -/
theorem group_follows (ih : CallsFollow fuel name sub) (h : isLookaround left = false)
    (filled : Bool) :
    Follows (fuel + 1) { left := '(' :: left, filled, depth }
      (transform fuel name sub (sub.length - (openGroup left).length) [] (openGroup left) >>= fun
        group => transform fuel name sub start
          (seq ++ [('(' :: (toRule group.1 ++ [')']), false)]) group.2) := by
  have hopen : EndsWell { left := '(' :: left, filled, depth }
      ↔ EndsWell { left := openGroup left, filled := false, depth := depth + 1 } := by
    apply endsWell_on
    show (if isLookaround left then _ else _) = _
    rw [h]
    rfl
  have hlen : (openGroup left).length < left.length + 1 := Nat.lt_succ_of_le (length_openGroup left)
  refine Keeps.bind (Keeps.imp (ih _ [] (openGroup left) (depth + 1)) (fun group hgroup => hgroup)
    fun fault hfails hfuel => ?_) fun group hgroup => ?_
  · rw [hopen]
    exact hfails fun h => Nat.lt_of_lt_of_le hlen (Nat.le_of_lt_succ (hfuel h))
  · refine ih.item _ _ (Nat.lt_of_le_of_lt hgroup.1 hlen) ?_
    exact hopen.trans (hgroup.2.trans (or_iff_right (Nat.succ_ne_zero depth)))

/-- The case of a repetition range. -/
theorem curly_follows (ih : CallsFollow fuel name sub) :
    Follows (fuel + 1) { left := '{' :: left, filled := !seq.isEmpty, depth }
      (transform (fuel + 1) name sub start seq ('{' :: left)) := by
  have hlen : (behindCurly left).length < left.length + 1 :=
    Nat.lt_succ_of_le (length_behindCurly left)
  have hstep : ∀ filled, Place.step { left := '{' :: left, filled, depth }
      = (match times ((curlyBrackets left).splitOn ',') with
        | .error .invalidArgument => Place.close { left := '{' :: left, filled, depth }
          (behindCurly left)
        | .error .outOfRange => .trouble
        | .ok _ => Place.repeated { left := '{' :: left, filled, depth } (behindCurly left)) :=
    fun _ => rfl
  change Follows _ _ (reportIf _ _ >>= fun _ => reportIf _ _ >>= fun _ => _)
  refine .after (fun _ => .after (fun _ => ?_) (reportIf_ok _ _)) (reportIf_ok _ _)
  cases htimes : times ((curlyBrackets left).splitOn ',') with
  | error fault =>
    rw [htimes] at hstep
    cases fault with
    | invalidArgument =>
      exact .after (fun _ => .pure (Nat.le_of_lt hlen) (endsWell_close (hstep _)))
        (reportIf_ok _ _)
    | outOfRange => exact .throw (hstep _)
  | ok range =>
    rw [htimes] at hstep
    refine ih.repeated hlen hstep fun last hrest => .after (fun item => hrest _) ?_
    exact repeatedItem_ok name last

/-- The last branch: a literal is read, or nothing. Then the place was one of trouble. -/
theorem literal_follows (ih : CallsFollow fuel name sub)
    (hstuck : c ∈ NON_LITERAL_SET → ∀ filled,
      Place.step { left := c :: left, filled, depth } = .trouble) :
    Follows (fuel + 1) { left := c :: left, filled := !seq.isEmpty, depth }
      (transform fuel name sub start (if (literalRun [] (c :: left)).1 = [] then seq
        else seq ++ [((literalRun [] (c :: left)).1, true)]) (literalRun [] (c :: left)).2) := by
  rcases literalRun_reads [] (c :: left) with ⟨hstays, hmem⟩ | ⟨hne, hreads⟩
  · have htrouble : ¬ EndsWell { left := c :: left, filled := !seq.isEmpty, depth } :=
      not_safe (hstuck (hmem rfl c rfl) _)
    rw [hstays, if_pos rfl]
    exact Keeps.imp (ih start seq (c :: left) depth) (fun r hr => hr) fun _ _ _ => htrouble
  · rw [if_neg hne]
    exact ih.readsTo _ hreads

/-- Induction on the fuel, with one case for each branch of the loop. -/
theorem transform_follows (fuel : Nat) : CallsFollow fuel name sub := by
  induction fuel with
  | zero =>
    intro start seq left depth
    exact Keeps.throw fun h => absurd (h rfl) (Nat.not_lt_zero _)
  | succ fuel ih =>
    intro start seq left depth
    cases left with
    | nil =>
      refine .pure (Nat.le_refl _) (iff_of_true (endsWell_done rfl) ?_)
      exact .inr (endsWell_done rfl)
    | cons c left =>
      rw [transform]
      split
      · rename_i hc
        subst hc
        exact .after (fun dot => ih.readsTo _ (.of_step (Nat.lt_succ_self _) fun _ _ => rfl))
          getDot_ok
      · rename_i hdot
        split
        · rename_i hc
          subst hc
          split
          · rename_i hlook
            refine .after (fun _ => (ih start seq _ depth).on (endsWell_on (if_pos hlook)) ?_ rfl)
              fun c => ⟨(), _, rfl⟩
            exact Nat.lt_succ_of_le (length_skipGroup 1 left)
          · rename_i hlook
            exact group_follows ih (Bool.not_eq_true _ ▸ hlook) _
        · rename_i hopen
          split
          · rename_i hc
            subst hc
            exact .after (fun _ => .pure (Nat.le_succ _) (endsWell_close rfl)) (reportIf_ok _ _)
          · rename_i hclose
            split
            · rename_i hc
              subst hc
              refine .after (fun _ => ih.readsTo _ (.of_step ?_ fun _ _ => rfl)) (reportIf_ok _ _)
              exact Nat.lt_succ_of_le (length_squareBrackets left)
            · rename_i hclass
              split
              · rename_i hc
                subst hc
                exact ih.readsTo _ (.of_step (Nat.lt_succ_self _) fun _ _ => rfl)
              · rename_i hbar
                split
                · rename_i hc
                  refine ih.repeated (Nat.lt_succ_self _) ?_ fun last hrest => hrest _
                  rcases hc with rfl | rfl | rfl
                  · exact fun _ => rfl
                  · exact fun _ => rfl
                  · exact fun _ => rfl
                · rename_i hquant
                  split
                  · rename_i hc
                    subst hc
                    exact curly_follows ih
                  · rename_i hcurly
                    refine literal_follows ih fun hmem filled => ?_
                    have hends : c = ']' ∨ c = '}' := by
                      simpa [NON_LITERAL_SET, hdot, hopen, hclose, hclass, hbar, hcurly,
                        not_or.mp hquant] using hmem
                    rcases hends with rfl | rfl
                    · rfl
                    · rfl

end

/-! ### The conversion of a pattern -/

/-- The call returns, with one more error or with a rule under the name that it returns. -/
def Returns (c : Converter) (pattern name : Text) : Prop :=
  ∃ fuel id c', (visitPattern fuel pattern name).run.run c = (.ok id, c') ∧
    (c.errors.length < c'.errors.length ∨ (c'.rules.lookup id).isSome)

/-- The transformation succeeds on exactly the patterns that the scan lets end. -/
theorem transform_ok_iff (name sub : Text) (c : Converter) :
    (∃ fuel r c', (transform fuel name sub 0 [] sub).run.run c = (.ok r, c')) ↔
      EndsWell { left := sub, filled := false, depth := 0 } := by
  have hfollows (fuel : Nat) : Follows fuel { left := sub, filled := false, depth := 0 }
      (transform fuel name sub 0 [] sub) := transform_follows fuel 0 [] sub 0
  constructor
  · rintro ⟨fuel, r, c', hrun⟩
    exact ((hfollows fuel c trivial).2.1 r (by rw [hrun])).2.mpr (.inl rfl)
  · intro hends
    obtain ⟨-, -, hfails⟩ := hfollows (sub.length + 1) c trivial
    rcases hrun : (transform (sub.length + 1) name sub 0 [] sub).run.run c with ⟨r, c'⟩
    cases r with
    | ok r => exact ⟨_, r, c', hrun⟩
    | error fault =>
      exact absurd hends (hfails fault (by rw [hrun]) fun _ => Nat.lt_succ_self _)

theorem visitPattern_run {pattern : Text} (fuel : Nat) (name : Text) (c : Converter)
    (hne : pattern ≠ []) (henc : Enclosed pattern) :
    (visitPattern fuel pattern name).run.run c
      = (transform fuel name (subPattern pattern) 0 [] (subPattern pattern) >>= fun rule =>
          addRule name (quotedRule (toRule rule.1))).run.run { c with subRuleIds := [] } := by
  rw [visitPattern, if_neg hne, if_pos henc]
  rfl

/-- A pattern is converted or refused exactly when it is not empty and its reading, between `^` and
`$`, comes to no trouble. -/
theorem visitPattern_returns_iff (c : Converter) (pattern name : Text) :
    Returns c pattern name ↔ pattern ≠ [] ∧ (Enclosed pattern →
      EndsWell { left := subPattern pattern, filled := false, depth := 0 }) := by
  by_cases hne : pattern = []
  · refine iff_of_false ?_ fun h => h.1 hne
    rintro ⟨fuel, id, c', hrun, -⟩
    rw [visitPattern, if_pos hne] at hrun
    cases hrun
  · rw [and_iff_right hne]
    by_cases henc : Enclosed pattern
    · rw [forall_prop_of_true henc, ← transform_ok_iff name _ { c with subRuleIds := [] }]
      constructor
      · rintro ⟨fuel, id, c', hrun, -⟩
        rw [visitPattern_run fuel name c hne henc, Throwing.run_bind] at hrun
        rcases htransform : (transform fuel name (subPattern pattern) 0 []
          (subPattern pattern)).run.run { c with subRuleIds := [] } with ⟨r, c''⟩
        rw [htransform] at hrun
        cases r with
        | ok r => exact ⟨fuel, r, c'', htransform⟩
        | error fault => cases hrun
      · rintro ⟨fuel, r, c'', htransform⟩
        obtain ⟨key, hkey⟩ := addRule_run c'' name (quotedRule (toRule r.1))
        have hrun := visitPattern_run fuel name c hne henc
        rw [Throwing.run_bind, htransform] at hrun
        refine ⟨fuel, key, _, hrun.trans hkey, .inr ?_⟩
        rw [List.lookup_cons_self]
        rfl
    · have hrun : (visitPattern 0 pattern name).run.run c = (.ok [], { c with
          errors := c.errors ++ ["Pattern must start with '^' and end with '$'"] }) := by
        rw [visitPattern, if_neg hne, if_neg henc]
        rfl
      refine iff_of_true ⟨0, [], _, hrun, .inl ?_⟩ fun h => absurd h henc
      rw [List.length_append]
      exact Nat.lt_succ_self _

/-- A quantifier at the start has nothing to repeat. -/
theorem not_returns_star : ¬ ∀ c pattern name, Returns c pattern name := by
  intro h
  obtain ⟨fuel, id, c', hrun, -⟩ := h {} ['^', '*', '$'] []
  cases fuel with
  | zero => cases hrun
  | succ fuel =>
    have hback : ((visitPattern (fuel + 1) ['^', '*', '$'] []).run.run {}).1
        = .error .backOfEmpty := rfl
    rw [hrun] at hback
    cases hback

end PxqLlama.Common.SchemaPattern
