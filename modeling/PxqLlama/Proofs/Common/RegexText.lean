import PxqLlama.Common.RegexPartial

/-!
# `Proofs.Common.RegexText`: patterns as texts

A text is written from one tree at most (`Alts.text_inj`), so a `CommonRegex` is known from its
pattern.
-/

namespace PxqLlama.Common

/-! ### A text is written from one tree -/

/-- The text does not begin with one of the characters. -/
def NotBefore (cs : List Char) (r : List Char) : Prop := ∀ c ∈ r.head?, c ∉ cs

/-- The characters that an element does not begin with. -/
def nonStarts : List Char := [')', '|', '*', '+', '?', '{']

/-- What begins a quantifier. -/
def quantStarts : List Char := ['*', '+', '?', '{']

variable {r : List Char} {c : Char} {A : List (List (List Char))}

theorem NotBefore.cons_ne {cs t : List Char} (h : NotBefore cs r) (hc : c ∈ cs) : r ≠ c :: t := by
  rintro rfl
  exact h c rfl hc

theorem plain_notMem_nonStarts (h : isPlain c = true) : c ∉ nonStarts := by
  intro hmem
  rw [isPlain, Bool.not_eq_true', ← Bool.not_eq_true, List.contains_iff_mem] at h
  have hsub : nonStarts ⊆ ['^', '$', '\\', '*', '+', '?', '(', ')', '[', '{', '|'] := by decide
  exact h (hsub hmem)

theorem ClassChar.flatMap_text_inj {l l' : List ClassChar} {r r' : List Char}
    (h : l.flatMap text ++ ']' :: r = l'.flatMap text ++ ']' :: r') : l = l' ∧ r = r' := by
  induction l generalizing l' with
  | nil =>
    cases l' with
    | nil => exact ⟨rfl, (List.cons.inj h).2⟩
    | cons c l' =>
      cases c with
      | plain c hc =>
        have heq : ']' = c := (List.cons.inj h).1
        rw [← heq] at hc
        exact absurd hc (by decide)
      | escape c => exact absurd (List.cons.inj h).1 (by decide)
  | cons c l ih =>
    cases l' with
    | nil =>
      cases c with
      | plain c hc =>
        have heq : c = ']' := (List.cons.inj h).1
        rw [heq] at hc
        exact absurd hc (by decide)
      | escape c => exact absurd (List.cons.inj h).1 (by decide)
    | cons c' l' =>
      simp only [List.flatMap_cons, List.append_assoc] at h
      cases c with
      | plain c hc =>
        cases c' with
        | plain c' hc' =>
          obtain ⟨rfl, htail⟩ := List.cons.inj h
          obtain ⟨rfl, rfl⟩ := ih htail
          exact ⟨rfl, rfl⟩
        | escape c' =>
          have heq : c = '\\' := (List.cons.inj h).1
          rw [heq] at hc
          exact absurd hc (by decide)
      | escape c =>
        cases c' with
        | plain c' hc' =>
          have heq : '\\' = c' := (List.cons.inj h).1
          rw [← heq] at hc'
          exact absurd hc' (by decide)
        | escape c' =>
          obtain ⟨rfl, htail⟩ := List.cons.inj (List.cons.inj h).2
          obtain ⟨rfl, rfl⟩ := ih htail
          exact ⟨rfl, rfl⟩

variable {r' : List Char} {b : Branch}

/-- A symbol is read off the front of a text in one way. -/
theorem Sym.text_inj {s s' : Sym} (h : s.text ++ r = s'.text ++ r') : s = s' ∧ r = r' := by
  cases s with
  | plain c hc =>
    cases s' with
    | plain c' hc' =>
      obtain ⟨rfl, rfl⟩ := List.cons.inj h
      exact ⟨rfl, rfl⟩
    | escape c' hc' =>
      have heq : c = '\\' := (List.cons.inj h).1
      rw [heq] at hc
      exact absurd hc (by decide)
    | cls body =>
      have heq : c = '[' := (List.cons.inj h).1
      rw [heq] at hc
      exact absurd hc (by decide)
  | escape c hc =>
    cases s' with
    | plain c' hc' =>
      have heq : '\\' = c' := (List.cons.inj h).1
      rw [← heq] at hc'
      exact absurd hc' (by decide)
    | escape c' hc' =>
      obtain ⟨rfl, rfl⟩ := List.cons.inj (List.cons.inj h).2
      exact ⟨rfl, rfl⟩
    | cls body => exact absurd (List.cons.inj h).1 (by decide)
  | cls body =>
    cases s' with
    | plain c' hc' =>
      have heq : '[' = c' := (List.cons.inj h).1
      rw [← heq] at hc'
      exact absurd hc' (by decide)
    | escape c' hc' => exact absurd (List.cons.inj h).1 (by decide)
    | cls body' =>
      have htail : body.flatMap ClassChar.text ++ [']'] ++ r =
          body'.flatMap ClassChar.text ++ [']'] ++ r' := (List.cons.inj h).2
      rw [List.append_assoc, List.append_assoc] at htail
      obtain ⟨rfl, rfl⟩ := ClassChar.flatMap_text_inj htail
      exact ⟨rfl, rfl⟩

/-- Digits before something that is no digit. -/
theorem digits_append_inj {d d' : List Char} (hd : d.all Char.isDigit = true)
    (hd' : d'.all Char.isDigit = true) (hr : ∀ c ∈ r.head?, c.isDigit = false)
    (hr' : ∀ c ∈ r'.head?, c.isDigit = false) (h : d ++ r = d' ++ r') : d = d' ∧ r = r' := by
  induction d generalizing d' with
  | nil =>
    cases d' with
    | nil => exact ⟨rfl, h⟩
    | cons c d' =>
      have hc : c.isDigit = false := hr c (by rw [show r = c :: (d' ++ r') from h]; rfl)
      rw [List.all_cons, hc] at hd'
      cases hd'
  | cons c d ih =>
    cases d' with
    | nil =>
      have hc : c.isDigit = false := hr' c (by rw [← show c :: (d ++ r) = r' from h]; rfl)
      rw [List.all_cons, hc] at hd
      cases hd
    | cons c' d' =>
      obtain ⟨rfl, htail⟩ := List.cons.inj h
      rw [List.all_cons, Bool.and_eq_true] at hd hd'
      obtain ⟨rfl, rfl⟩ := ih hd.2 hd'.2 htail
      exact ⟨rfl, rfl⟩

theorem Count.digits_append_inj {m m' : Count} {c' : Char} (hc : c.isDigit = false)
    (hc' : c'.isDigit = false) (h : m.digits ++ c :: r = m'.digits ++ c' :: r') :
    m = m' ∧ c = c' ∧ r = r' := by
  obtain ⟨hd, ht⟩ := Common.digits_append_inj m.isDigit m'.isDigit
    (by rintro _ ⟨⟩; exact hc) (by rintro _ ⟨⟩; exact hc') h
  obtain ⟨hcc, hr⟩ := List.cons.inj ht
  cases m
  cases m'
  cases hd
  exact ⟨rfl, hcc, hr⟩

/-- A number has a digit, and `}` is none. -/
theorem Count.digits_ne_brace (m : Count) : m.digits ++ r ≠ '}' :: r' := by
  obtain ⟨c, ds, hds⟩ := List.exists_cons_of_ne_nil m.ne_nil
  have hc := m.isDigit
  rw [hds, List.all_cons, Bool.and_eq_true] at hc
  rw [hds]
  intro heq
  rw [(List.cons.inj heq).1] at hc
  exact absurd hc.1 (by decide)

theorem Quant.range_inj {m m' : Count} {n n' : Option (Option Count)} {r r' : List Char}
    (h : range m n ++ '}' :: r = range m' n' ++ '}' :: r') : m = m' ∧ n = n' ∧ r = r' := by
  match n, n' with
  | none, none =>
    obtain ⟨rfl, -, rfl⟩ := Count.digits_append_inj (by decide) (by decide) h
    exact ⟨rfl, rfl, rfl⟩
  | none, some none | none, some (some _) | some none, none | some (some _), none =>
    rw [range, range, List.append_assoc] at h
    exact absurd (Count.digits_append_inj (by decide) (by decide) h).2.1 (by decide)
  | some none, some none =>
    rw [range, range, List.append_assoc, List.append_assoc] at h
    obtain ⟨rfl, -, htail⟩ := Count.digits_append_inj (by decide) (by decide) h
    exact ⟨rfl, rfl, (List.cons.inj htail).2⟩
  | some none, some (some n') =>
    rw [range, range, List.append_assoc, List.append_assoc] at h
    obtain ⟨-, -, htail⟩ := Count.digits_append_inj (by decide) (by decide) h
    exact absurd htail.symm n'.digits_ne_brace
  | some (some n), some none =>
    rw [range, range, List.append_assoc, List.append_assoc] at h
    obtain ⟨-, -, htail⟩ := Count.digits_append_inj (by decide) (by decide) h
    exact absurd htail n.digits_ne_brace
  | some (some n), some (some n') =>
    rw [range, range, List.append_assoc, List.append_assoc] at h
    obtain ⟨rfl, -, htail⟩ := Count.digits_append_inj (by decide) (by decide) h
    obtain ⟨rfl, -, rfl⟩ := Count.digits_append_inj (by decide) (by decide) htail
    exact ⟨rfl, rfl, rfl⟩

/-- So is a quantifier, when no other follows it. -/
theorem Quant.text_inj {q q' : Quant} (hr : NotBefore quantStarts r)
    (hr' : NotBefore quantStarts r') (h : q.text ++ r = q'.text ++ r') : q = q' ∧ r = r' := by
  -- A quantifier in braces is its range, and the range tells which one it is.
  have hbraces : ∀ {m m' : Count} {n n' : Option (Option Count)},
      '{' :: (range m n ++ ['}']) ++ r = '{' :: (range m' n' ++ ['}']) ++ r' →
        m = m' ∧ n = n' ∧ r = r' := by
    intro m m' n n' heq
    have htail : range m n ++ ['}'] ++ r = range m' n' ++ ['}'] ++ r' := (List.cons.inj heq).2
    rw [List.append_assoc, List.append_assoc] at htail
    exact range_inj htail
  have hsuffix : ∀ s : Suffix, s.char ∈ quantStarts ∧ s.char ≠ '{' := by
    intro s
    cases s <;> decide
  cases q with
  | once =>
    cases q' with
    | once => exact ⟨rfl, h⟩
    | rep s => exact absurd h (hr.cons_ne (hsuffix s).1)
    | exactly | atLeast | between => exact absurd h (hr.cons_ne (by decide))
  | rep s =>
    cases q' with
    | once => exact absurd h.symm (hr'.cons_ne (hsuffix s).1)
    | rep s' =>
      obtain ⟨hchar, rfl⟩ := List.cons.inj h
      cases s <;> cases s' <;> first | exact ⟨rfl, rfl⟩ | exact absurd hchar (by decide)
    | exactly | atLeast | between => exact absurd (List.cons.inj h).1 (hsuffix s).2
  | exactly m =>
    cases q' with
    | once => exact absurd h.symm (hr'.cons_ne (by decide))
    | rep s => exact absurd (List.cons.inj h).1.symm (hsuffix s).2
    | exactly m' =>
      obtain ⟨rfl, -, rfl⟩ := hbraces h
      exact ⟨rfl, rfl⟩
    | atLeast m' => cases (hbraces h).2.1
    | between m' n' hle' => cases (hbraces h).2.1
  | atLeast m =>
    cases q' with
    | once => exact absurd h.symm (hr'.cons_ne (by decide))
    | rep s => exact absurd (List.cons.inj h).1.symm (hsuffix s).2
    | exactly m' => cases (hbraces h).2.1
    | atLeast m' =>
      obtain ⟨rfl, -, rfl⟩ := hbraces h
      exact ⟨rfl, rfl⟩
    | between m' n' hle' => cases (hbraces h).2.1
  | between m n hle =>
    cases q' with
    | once => exact absurd h.symm (hr'.cons_ne (by decide))
    | rep s => exact absurd (List.cons.inj h).1.symm (hsuffix s).2
    | exactly m' => cases (hbraces h).2.1
    | atLeast m' => cases (hbraces h).2.1
    | between m' n' hle' =>
      obtain ⟨rfl, hn, rfl⟩ := hbraces h
      cases hn
      exact ⟨rfl, rfl⟩

theorem Sym.exists_text (s : Sym) : ∃ c t, s.text = c :: t ∧ c ∉ nonStarts ∧ c ≠ '(' := by
  cases s with
  | plain c hc =>
    refine ⟨c, [], rfl, plain_notMem_nonStarts hc, ?_⟩
    rintro rfl
    exact absurd hc (by decide)
  | escape c hc => exact ⟨'\\', [c], rfl, by decide, by decide⟩
  | cls body => exact ⟨'[', _, rfl, by decide, by decide⟩

theorem Item.exists_text (i : Item) : ∃ c t, i.text = c :: t ∧ c ∉ nonStarts := by
  cases i with
  | sym s q =>
    obtain ⟨c, t, hs, hc, -⟩ := s.exists_text
    exact ⟨c, t ++ q.text, by rw [Item.text, hs, List.cons_append], hc⟩
  | group capture body q =>
    cases capture with
    | true => exact ⟨'(', _, rfl, by decide⟩
    | false => exact ⟨'(', _, rfl, by decide⟩

theorem Branch.exists_text (b : Branch) : ∃ c t, b.text = c :: t ∧ c ∉ nonStarts := by
  cases b with
  | one i => exact i.exists_text
  | cons i b =>
    obtain ⟨c, t, hi, hc⟩ := i.exists_text
    exact ⟨c, t ++ b.text, by rw [Branch.text, hi, List.cons_append], hc⟩

theorem Alts.exists_text (a : Alts) : ∃ c t, a.text = c :: t ∧ c ∉ nonStarts := by
  cases a with
  | one b => exact b.exists_text
  | cons b a =>
    obtain ⟨c, t, hb, hc⟩ := b.exists_text
    exact ⟨c, t ++ '|' :: a.text, by rw [Alts.text, hb, List.cons_append], hc⟩

theorem Branch.notBefore_text {cs : List Char} (hcs : cs ⊆ nonStarts) (b : Branch) (r : List Char) :
    NotBefore cs (b.text ++ r) := by
  obtain ⟨c, t, hb, hc⟩ := b.exists_text
  rw [hb]
  rintro _ ⟨⟩ hmem
  exact hc (hcs hmem)

/-- What stands behind an alternation: nothing or `)`. -/
def EndsAlts (r : List Char) : Prop := r = [] ∨ ∃ t, r = ')' :: t

/-- What stands behind a branch. -/
def EndsBranch (r : List Char) : Prop := EndsAlts r ∨ ∃ t, r = '|' :: t

theorem EndsBranch.notBefore (h : EndsBranch r) : NotBefore quantStarts r := by
  rcases h with (rfl | ⟨t, rfl⟩) | ⟨t, rfl⟩
  · rintro c ⟨⟩
  · rintro _ ⟨⟩
    decide
  · rintro _ ⟨⟩
    decide

theorem EndsBranch.ne_text {t : List Char} (h : EndsBranch r) (b : Branch) : r ≠ b.text ++ t := by
  obtain ⟨c, t', hb, hc⟩ := b.exists_text
  rw [hb]
  rcases h with (rfl | ⟨t, rfl⟩) | ⟨t, rfl⟩
  · exact (List.cons_ne_nil _ _).symm
  · intro heq
    rw [← (List.cons.inj heq).1] at hc
    exact absurd hc (by decide)
  · intro heq
    rw [← (List.cons.inj heq).1] at hc
    exact absurd hc (by decide)

theorem EndsAlts.ne_bar {t : List Char} (h : EndsAlts r) : r ≠ '|' :: t := by
  rcases h with rfl | ⟨t', rfl⟩
  · exact (List.cons_ne_nil _ _).symm
  · intro heq
    exact absurd (List.cons.inj heq).1 (by decide)

mutual

/-- So is an item, a symbol or a group. -/
theorem Item.text_inj : ∀ {i j : Item} {r r' : List Char}, NotBefore quantStarts r →
    NotBefore quantStarts r' → i.text ++ r = j.text ++ r' → i = j ∧ r = r'
  | .sym s q, .sym s' q', r, r', hr, hr', h => by
    rw [Item.text, Item.text, List.append_assoc, List.append_assoc] at h
    obtain ⟨rfl, hq⟩ := Sym.text_inj h
    obtain ⟨rfl, rfl⟩ := Quant.text_inj hr hr' hq
    exact ⟨rfl, rfl⟩
  | .sym s q, .group capture body q', r, r', hr, hr', h => by
    obtain ⟨c, t, hs, -, hc⟩ := s.exists_text
    rw [Item.text, hs] at h
    cases capture <;> exact absurd (List.cons.inj h).1 hc
  | .group capture body q, .sym s q', r, r', hr, hr', h => by
    obtain ⟨c, t, hs, -, hc⟩ := s.exists_text
    rw [Item.text, Item.text, hs] at h
    cases capture <;> exact absurd (List.cons.inj h).1.symm hc
  | .group capture body q, .group capture' body' q', r, r', hr, hr', h => by
    have hbody : ∀ t t' : List Char, body.text ++ ')' :: q.text ++ t =
        body'.text ++ ')' :: q'.text ++ t' → NotBefore quantStarts t → NotBefore quantStarts t' →
          body = body' ∧ q = q' ∧ t = t' := by
      intro t t' heq ht ht'
      rw [List.append_assoc, List.append_assoc] at heq
      obtain ⟨rfl, htail⟩ := Alts.text_inj (Or.inr ⟨_, rfl⟩) (Or.inr ⟨_, rfl⟩) heq
      obtain ⟨rfl, rfl⟩ := Quant.text_inj ht ht' (List.cons.inj htail).2
      exact ⟨rfl, rfl, rfl⟩
    -- A capturing group does not begin with a question mark.
    cases capture with
    | true =>
      cases capture' with
      | true =>
        obtain ⟨rfl, rfl, rfl⟩ := hbody r r' (List.cons.inj h).2 hr hr'
        exact ⟨rfl, rfl⟩
      | false =>
        obtain ⟨c, t, hc, hnot⟩ := body.exists_text
        have heq := (List.cons.inj h).2
        rw [hc] at heq
        rw [(List.cons.inj heq).1] at hnot
        exact absurd hnot (by decide)
    | false =>
      cases capture' with
      | true =>
        obtain ⟨c, t, hc, hnot⟩ := body'.exists_text
        have heq := (List.cons.inj h).2
        rw [hc] at heq
        rw [← (List.cons.inj heq).1] at hnot
        exact absurd hnot (by decide)
      | false =>
        have heq := (List.cons.inj (List.cons.inj (List.cons.inj h).2).2).2
        obtain ⟨rfl, rfl, rfl⟩ := hbody r r' heq hr hr'
        exact ⟨rfl, rfl⟩

/-- So is a branch, item by item. -/
theorem Branch.text_inj : ∀ {b c : Branch} {r r' : List Char}, EndsBranch r → EndsBranch r' →
    b.text ++ r = c.text ++ r' → b = c ∧ r = r'
  | .one i, .one j, r, r', hr, hr', h => by
    obtain ⟨rfl, rfl⟩ := Item.text_inj hr.notBefore hr'.notBefore h
    exact ⟨rfl, rfl⟩
  | .one i, .cons j c, r, r', hr, hr', h => by
    rw [Branch.text, Branch.text, List.append_assoc] at h
    have hnot : NotBefore quantStarts (c.text ++ r') := c.notBefore_text (by decide) r'
    exact absurd (Item.text_inj hr.notBefore hnot h).2 (hr.ne_text c)
  | .cons i b, .one j, r, r', hr, hr', h => by
    rw [Branch.text, Branch.text, List.append_assoc] at h
    have hnot : NotBefore quantStarts (b.text ++ r) := b.notBefore_text (by decide) r
    exact absurd (Item.text_inj hnot hr'.notBefore h).2.symm (hr'.ne_text b)
  | .cons i b, .cons j c, r, r', hr, hr', h => by
    rw [Branch.text, Branch.text, List.append_assoc, List.append_assoc] at h
    have hnot : NotBefore quantStarts (b.text ++ r) := b.notBefore_text (by decide) r
    have hnot' : NotBefore quantStarts (c.text ++ r') := c.notBefore_text (by decide) r'
    obtain ⟨rfl, htail⟩ := Item.text_inj hnot hnot' h
    obtain ⟨rfl, rfl⟩ := Branch.text_inj hr hr' htail
    exact ⟨rfl, rfl⟩

/-- And so is a list of alternatives: a pattern has one syntax tree. -/
theorem Alts.text_inj : ∀ {a c : Alts} {r r' : List Char}, EndsAlts r → EndsAlts r' →
    a.text ++ r = c.text ++ r' → a = c ∧ r = r'
  | .one b, .one c, r, r', hr, hr', h => by
    obtain ⟨rfl, rfl⟩ := Branch.text_inj (Or.inl hr) (Or.inl hr') h
    exact ⟨rfl, rfl⟩
  | .one b, .cons c a, r, r', hr, hr', h => by
    rw [Alts.text, Alts.text, List.append_assoc] at h
    exact absurd (Branch.text_inj (Or.inl hr) (Or.inr ⟨_, rfl⟩) h).2 hr.ne_bar
  | .cons b a, .one c, r, r', hr, hr', h => by
    rw [Alts.text, Alts.text, List.append_assoc] at h
    exact absurd (Branch.text_inj (Or.inr ⟨_, rfl⟩) (Or.inl hr') h).2.symm hr'.ne_bar
  | .cons b a, .cons c d, r, r', hr, hr', h => by
    rw [Alts.text, Alts.text, List.append_assoc, List.append_assoc] at h
    obtain ⟨rfl, htail⟩ := Branch.text_inj (Or.inr ⟨_, rfl⟩) (Or.inr ⟨_, rfl⟩) h
    obtain ⟨rfl, rfl⟩ := Alts.text_inj hr hr' (List.cons.inj htail).2
    exact ⟨rfl, rfl⟩

end

/-! ### The rewritten tree -/

/-- A quantified element as parts without braces; `rep` puts a suffix behind a part. -/
def Quant.parts {α : Type} (rep : Suffix → α → α) (e : α) : Quant → List α
  | once => [e]
  | .rep s => [rep s e]
  | exactly m => List.replicate m.value e
  | atLeast m => List.replicate m.value e ++ [rep .star e]
  | between m n _ => List.replicate m.value e ++ List.replicate (n.value - m.value) (rep .opt e)

theorem Quant.map_parts {α β : Type} {rep : Suffix → α → α} {rep' : Suffix → β → β} {e : α}
    {f : α → β} (h : ∀ s, f (rep s e) = rep' s (f e)) (q : Quant) :
    (q.parts rep e).map f = q.parts rep' (f e) := by
  cases q with
  | once => rfl
  | rep s => rw [parts, parts, List.map_singleton, h]
  | exactly m => rw [parts, parts, List.map_replicate]
  | atLeast m => rw [parts, parts, List.map_append, List.map_replicate, List.map_singleton, h]
  | between m n hle => rw [parts, parts, List.map_append, List.map_replicate, List.map_replicate, h]

/-- The element with another quantifier. -/
def Item.requant (s : Suffix) : Item → Item
  | .sym a _ => .sym a (.rep s)
  | .group capture body _ => .group capture body (.rep s)

/-- Parts from the last to the first, each but the first behind an optional group. -/
def nestFrom (i : Item) : List Item → Branch
  | [] => .one i
  | j :: is => .cons (.group false (.one (nestFrom j is)) (.rep .opt)) (.one i)

def nest : List Item → Option Branch
  | [] => none
  | i :: is => some (nestFrom i is)

mutual

/-- The parts that take the place of an element. -/
def Item.parts : Item → Option (List Item)
  | .sym s q => some (q.parts Item.requant (.sym s .once))
  | .group _ body q =>
    body.reversed.map fun body => q.parts Item.requant (.group false body .once)

def Branch.parts : Branch → Option (List Item)
  | .one i => i.parts
  | .cons i b => i.parts.bind fun is => b.parts.map fun js => is ++ js

/-- The rewritten tree, when no branch is left without parts. -/
def Alts.reversed : Alts → Option Alts
  | .one b => (b.parts.bind nest).map .one
  | .cons b a => (b.parts.bind nest).bind fun b => a.reversed.map fun a => .cons b a

end

theorem Alts.reversed_one {a' : Alts} (h : (Alts.one b).reversed = some a') :
    ∃ is b', b.parts = some is ∧ nest is = some b' ∧ a' = .one b' := by
  rw [Alts.reversed, Option.map_eq_some_iff] at h
  obtain ⟨b', hb', heq⟩ := h
  obtain ⟨is, his, hnest⟩ := Option.bind_eq_some_iff.mp hb'
  exact ⟨is, b', his, hnest, heq.symm⟩

theorem Alts.reversed_cons {a a' : Alts} (h : (Alts.cons b a).reversed = some a') :
    ∃ is b' r, b.parts = some is ∧ nest is = some b' ∧ a.reversed = some r ∧ a' = .cons b' r := by
  rw [Alts.reversed, Option.bind_eq_some_iff] at h
  obtain ⟨b', hb', hrest⟩ := h
  obtain ⟨r, hr, heq⟩ := Option.map_eq_some_iff.mp hrest
  obtain ⟨is, his, hnest⟩ := Option.bind_eq_some_iff.mp hb'
  exact ⟨is, b', r, his, hnest, hr, heq.symm⟩

/-! ### The loop -/

/-- `alternatives`, `sequence` and what is left of the pattern. -/
abbrev LoopState : Type := List (List (List Char)) × List (List Char) × List Char

/-- The loop comes from one state to another. -/
def Goes (s t : LoopState) : Prop :=
  ∀ n, s.2.2.length < n → ∃ n', t.2.2.length < n' ∧
    process n s.1 s.2.1 s.2.2 = process n' t.1 t.2.1 t.2.2

theorem Goes.trans {s t u : LoopState} (h : Goes s t) (h' : Goes t u) : Goes s u := by
  intro n hn
  obtain ⟨n₁, hn₁, heq₁⟩ := h n hn
  obtain ⟨n₂, hn₂, heq₂⟩ := h' n₁ hn₁
  exact ⟨n₂, hn₂, heq₁.trans heq₂⟩

/-- One round of the loop. -/
theorem goes_of_round {A' : List (List (List Char))} {S S' : List (List Char)}
    {it it' : List Char} (hle : it'.length ≤ it.length)
    (h : ∀ n, it.length < n → process (n + 1) A S (c :: it) = process n A' S' it') :
    Goes (A, S, c :: it) (A', S', it') := by
  intro n hn
  obtain ⟨k, rfl⟩ : ∃ k, n = k + 1 := ⟨n - 1, by have : 0 < n := Nat.zero_lt_of_lt hn; omega⟩
  have hk : it.length < k := Nat.lt_of_succ_lt_succ hn
  exact ⟨k, lt_of_le_of_lt hle hk, h k hk⟩

theorem classEnd_flatMap_text (body : List ClassChar) (r : List Char) :
    classEnd (body.flatMap ClassChar.text ++ ']' :: r) =
      .ok (body.flatMap ClassChar.text ++ [']'], r) := by
  induction body with
  | nil =>
    show classEnd (']' :: r) = _
    unfold classEnd
    rfl
  | cons c body ih =>
    rw [List.flatMap_cons, List.append_assoc]
    cases c with
    | plain c hc =>
      rw [Bool.and_eq_true, bne_iff_ne, bne_iff_ne] at hc
      show classEnd (c :: (body.flatMap ClassChar.text ++ ']' :: r)) = _
      unfold classEnd
      rw [if_neg hc.1, if_neg hc.2, ih]
      rfl
    | escape c =>
      show classEnd ('\\' :: c :: (body.flatMap ClassChar.text ++ ']' :: r)) = _
      unfold classEnd
      rw [if_pos rfl]
      show (classEnd (body.flatMap ClassChar.text ++ ']' :: r) >>= _) = _
      rw [ih]
      rfl

/-- The transformation reads a symbol. -/
theorem goes_sym (A : List (List (List Char))) (S : List (List Char)) (s : Sym) (r : List Char) :
    Goes (A, S, s.text ++ r) (A, S ++ [s.text], r) := by
  cases s with
  | plain c hc =>
    refine goes_of_round (Nat.le_refl _) fun n _ => ?_
    have hne : ∀ d ∈ ['^', '$', '\\', '*', '+', '?', '(', ')', '[', '{', '|'], c ≠ d := by
      rintro d hd rfl
      rw [isPlain, List.contains_iff_mem.mpr hd] at hc
      exact absurd hc (by decide)
    have hquant : ¬ (c = '*' ∨ c = '?' ∨ c = '+') := by
      rintro (h | h | h)
      · exact hne _ (by decide) h
      · exact hne _ (by decide) h
      · exact hne _ (by decide) h
    show process (n + 1) A S (c :: r) = _
    rw [process, if_neg (hne _ (by decide)), if_neg hquant, if_neg (hne _ (by decide)),
      if_neg (hne _ (by decide)), if_neg (hne _ (by decide)), if_neg (hne _ (by decide)),
      if_neg (hne _ (by decide))]
    rfl
  | escape c hc =>
    exact goes_of_round (Nat.le_succ _) fun n _ => rfl
  | cls body =>
    have htext : (Sym.cls body).text ++ r = '[' :: (body.flatMap ClassChar.text ++ ']' :: r) := by
      rw [Sym.text, List.cons_append, List.append_assoc]
      rfl
    rw [htext]
    refine goes_of_round ?_ fun n _ => ?_
    · rw [List.length_append, List.length_cons]
      omega
    · rw [process, if_pos rfl, classEnd_flatMap_text]
      rfl

/-! ### Repetitions -/

theorem Count.isDigit_of_mem (m : Count) (hc : c ∈ m.digits) : c.isDigit = true :=
  List.all_eq_true.mp m.isDigit c hc

theorem Count.notMem_digits (m : Count) (hc : c.isDigit = false) : c ∉ m.digits :=
  fun hmem => absurd ((m.isDigit_of_mem hmem).symm.trans hc) (by decide)

/-- The digits are above the characters that `isspace` takes. -/
theorem isSpace_of_isDigit (h : c.isDigit = true) : isSpace c = false := by
  rw [← Bool.not_eq_true]
  intro hspace
  rw [isSpace, Bool.or_eq_true, Bool.and_eq_true, decide_eq_true_eq, decide_eq_true_eq,
    decide_eq_true_eq] at hspace
  rw [Char.isDigit, Bool.and_eq_true, decide_eq_true_eq, decide_eq_true_eq] at h
  rcases hspace with rfl | ⟨-, hle⟩
  · exact absurd h.1 (by decide)
  · exact absurd (UInt32.le_trans h.1 hle) (by decide)

/-- `std::stoi` reads the digits of a count. -/
theorem stoi_digits (m : Count) : stoi m.digits = .ok (m.value : Int) := by
  obtain ⟨c, ds, hds⟩ := List.exists_cons_of_ne_nil m.ne_nil
  have hc : c.isDigit = true := m.isDigit_of_mem (hds ▸ List.mem_cons_self)
  have hspace : m.digits.dropWhile isSpace = m.digits := by
    rw [hds, List.dropWhile_cons, isSpace_of_isDigit hc]
    rfl
  have htake : m.digits.takeWhile Char.isDigit = m.digits := by
    have happend : (m.digits ++ []).takeWhile Char.isDigit = m.digits ++ [].takeWhile _ :=
      List.takeWhile_append_of_pos fun c hc => m.isDigit_of_mem hc
    rwa [List.append_nil, List.takeWhile_nil, List.append_nil] at happend
  -- There is no sign in front of a digit.
  have hsign : splitSign m.digits = (false, m.digits) := by
    rw [hds]
    refine splitSign.eq_3 _ ?_ ?_
    · rintro s heq
      rw [(List.cons.inj heq).1] at hc
      exact absurd hc (by decide)
    · rintro s heq
      rw [(List.cons.inj heq).1] at hc
      exact absurd hc (by decide)
  have hfits : ¬ ((digitsValue m.digits : Int) < -INT_MAX - 1 ∨
      INT_MAX < (digitsValue m.digits : Int)) := by
    have := m.fits
    simp only [INT_MAX]
    omega
  rw [stoi, hspace, hsign]
  show (if m.digits.takeWhile Char.isDigit = [] then _ else _) = _
  rw [htake, if_neg m.ne_nil]
  exact if_neg hfits

/-- The greatest number of rounds of a range. -/
def rangeMax (m : Count) : Option (Option Count) → Option Int
  | none => some m.value
  | some none => none
  | some (some n) => some n.value

/-- The range parser reads what the syntax tree writes. -/
theorem parseRange_range (m : Count) (n : Option (Option Count)) (r : List Char)
    (hle : ∀ n' ∈ n, ∀ k ∈ n', m.value ≤ k.value) :
    parseRange (Quant.range m n ++ '}' :: r) = .ok ((m.value : Int), rangeMax m n, r) := by
  have hbrace : ∀ c ∈ Quant.range m n, (c != '}') = true := by
    have hdigit : ∀ (k : Count), ∀ c ∈ k.digits, (c != '}') = true := by
      intro k c hc
      rw [bne_iff_ne]
      rintro rfl
      exact k.notMem_digits (by decide) hc
    match n with
    | none => exact hdigit m
    | some none =>
      intro c hc
      rcases List.mem_append.mp hc with hm | hc
      · exact hdigit m c hm
      · rw [List.mem_singleton.mp hc]
        decide
    | some (some k) =>
      intro c hc
      rcases List.mem_append.mp hc with hm | hc
      · exact hdigit m c hm
      · rcases List.mem_cons.mp hc with rfl | hk
        · decide
        · exact hdigit k c hk
  have htake : (Quant.range m n ++ '}' :: r).takeWhile (· != '}') = Quant.range m n := by
    rw [List.takeWhile_append_of_pos hbrace, List.takeWhile_cons]
    exact List.append_nil _
  have hdrop : (Quant.range m n ++ '}' :: r).dropWhile (· != '}') = '}' :: r := by
    rw [List.dropWhile_append_of_pos hbrace, List.dropWhile_cons]
    rfl
  have hcomma : ∀ k : Count, ',' ∉ k.digits := fun k => k.notMem_digits (by decide)
  have hopt : ∀ (k : Count) (d : Option Int),
      parseOptInt k.digits d = .ok (some (k.value : Int)) := by
    intro k d
    rw [parseOptInt, if_neg k.ne_nil, stoi_digits]
  rw [parseRange, htake, hdrop]
  match n with
  | none =>
    have hsplit : (Quant.range m none).splitOn ',' = [m.digits] :=
      List.splitOn_eq_singleton (hcomma m)
    have hmax : ¬ (some (m.value : Int)).any (· < (m.value : Int)) = true := by simp
    rw [hsplit]
    show (parseOptInt m.digits (some 0) >>= _) = _
    rw [hopt]
    exact if_neg hmax
  | some none =>
    have hsplit : (Quant.range m (some none)).splitOn ',' = [m.digits, []] :=
      List.splitOn_append_cons_self_of_not_mem (hcomma m) []
    rw [hsplit]
    show (parseOptInt m.digits (some 0) >>= _) = _
    rw [hopt]
    rfl
  | some (some k) =>
    have hsplit : (Quant.range m (some (some k))).splitOn ',' = [m.digits, k.digits] := by
      rw [Quant.range, List.splitOn_append_cons_self_of_not_mem (hcomma m),
        List.splitOn_eq_singleton (hcomma k)]
    have hmax : ¬ (some (k.value : Int)).any (· < (m.value : Int)) = true := by
      have := hle _ rfl k rfl
      simpa using this
    rw [hsplit]
    show (parseOptInt m.digits (some 0) >>= _) = _
    rw [hopt]
    show (parseOptInt k.digits none >>= _) = _
    rw [hopt]
    exact if_neg hmax

/-- A suffix behind the text of a part. -/
def addSuffix (s : Suffix) (part : List Char) : List Char := part ++ [s.char]

/-- The branch for `{`. -/
theorem goes_range (A : List (List (List Char))) (S : List (List Char)) (p : List Char) (m : Count)
    (n : Option (Option Count)) (r : List Char) (hle : ∀ n' ∈ n, ∀ k ∈ n', m.value ≤ k.value) :
    Goes (A, S ++ [p], '{' :: (Quant.range m n ++ ['}']) ++ r)
      (A, S ++ repeatPart p m.value (rangeMax m n), r) := by
  have htext : '{' :: (Quant.range m n ++ ['}']) ++ r = '{' :: (Quant.range m n ++ '}' :: r) := by
    rw [List.cons_append, List.append_assoc]
    rfl
  rw [htext]
  refine goes_of_round ?_ fun k _ => ?_
  · rw [List.length_append, List.length_cons]
    omega
  · rw [process, if_neg (by decide), if_neg (by decide), if_pos rfl, List.getLast?_concat,
      List.dropLast_concat]
    show (throwing (parseRange (Quant.range m n ++ '}' :: r)) >>= _) = _
    rw [parseRange_range m n r hle]
    rfl

/-- The transformation reads a quantifier and splits the repetition. -/
theorem goes_quant (A : List (List (List Char))) (S : List (List Char)) (p : List Char)
    (q : Quant) (hr : NotBefore ['?'] r) :
    Goes (A, S ++ [p], q.text ++ r) (A, S ++ q.parts addSuffix p, r) := by
  cases q with
  | once => exact fun n hn => ⟨n, hn, rfl⟩
  | rep s =>
    refine goes_of_round (Nat.le_refl _) fun n _ => ?_
    have hlast : (S ++ [p]).getLast? = some p := List.getLast?_concat
    have hlazy : ¬ (s.char = '*' ∧ r.head? = some '?') := fun h => hr '?' h.2 (by decide)
    have hchar : s.char = '*' ∨ s.char = '?' ∨ s.char = '+' := by
      cases s <;> decide
    have hclass : s.char ≠ '[' := by
      cases s <;> decide
    rw [process, if_neg hclass, if_pos hchar, hlast]
    show process n A ((S ++ [p]).dropLast ++ [p ++ [s.char]])
      (if s.char = '*' ∧ r.head? = some '?' then r.tail else r) = _
    rw [if_neg hlazy, List.dropLast_concat]
    rfl
  | exactly m =>
    have hgoes := goes_range A S p m none r (by rintro _ ⟨⟩)
    have hparts : repeatPart p m.value (rangeMax m none) =
        (Quant.exactly m).parts addSuffix p := by
      show List.replicate m.value p ++ List.replicate ((m.value : Int) - m.value).toNat _ = _
      rw [Int.sub_self]
      exact List.append_nil _
    rw [hparts] at hgoes
    exact hgoes
  | atLeast m => exact goes_range A S p m (some none) r (by rintro _ ⟨⟩ _ ⟨⟩)
  | between m n hle =>
    have hgoes := goes_range A S p m (some (some n)) r (by rintro _ ⟨⟩ _ ⟨⟩; exact hle)
    have hparts : repeatPart p m.value (rangeMax m (some (some n))) =
        (Quant.between m n hle).parts addSuffix p := by
      show List.replicate m.value p ++ List.replicate ((n.value : Int) - m.value).toNat _ = _
      rw [show ((n.value : Int) - m.value).toNat = n.value - m.value by omega]
      rfl
    rw [hparts] at hgoes
    exact hgoes

/-! ### The text of the rewritten tree -/

theorem intercalate_concat (sep x : List Char) {l : List (List Char)} (hl : l ≠ []) :
    List.intercalate sep (l ++ [x]) = List.intercalate sep l ++ (sep ++ x) := by
  induction l with
  | nil => exact absurd rfl hl
  | cons y l ih =>
    cases l with
    | nil => simp [List.intercalate]
    | cons z l =>
      have hcons : ∀ k, List.intercalate sep (y :: z :: k) =
          y ++ (sep ++ List.intercalate sep (z :: k)) := fun k => by simp [List.intercalate]
      rw [List.cons_append, List.cons_append, hcons, hcons, ← List.cons_append,
        ih (List.cons_ne_nil _ _), List.append_assoc, List.append_assoc]

/-- The text of the nested groups. -/
theorem text_nestFrom (i : Item) (is : List Item) :
    (nestFrom i is).text = (List.replicate is.length ['(', '?', ':']).flatten ++
      List.intercalate [')', '?'] ((i :: is).map Item.text).reverse := by
  induction is generalizing i with
  | nil => exact (List.append_nil _).symm.trans (by simp [nestFrom, Branch.text, List.intercalate])
  | cons j is ih =>
    have hne : ((j :: is).map Item.text).reverse ≠ [] := by simp
    have hrev : ((i :: j :: is).map Item.text).reverse =
        ((j :: is).map Item.text).reverse ++ [i.text] := by
      rw [List.map_cons, List.reverse_cons]
    rw [nestFrom, Branch.text, Item.text, Alts.text, ih j, Branch.text, hrev,
      intercalate_concat _ _ hne, List.length_cons, List.replicate_succ, List.flatten_cons]
    simp only [openText, Quant.text, Suffix.char, Bool.false_eq_true, if_false, List.append_assoc,
      List.cons_append, List.nil_append]

theorem reverseParts_eq {is : List Item} (h : nest is = some b) :
    reverseParts (is.map Item.text) = .ok b.text := by
  cases is with
  | nil => cases h
  | cons i is =>
    obtain rfl := Option.some.inj h
    rw [reverseParts, if_neg (by simp), text_nestFrom, List.length_map]
    rfl

/-- The texts of the branches. -/
def Alts.branchTexts : Alts → List (List Char)
  | .one b => [b.text]
  | .cons b a => b.text :: a.branchTexts

theorem Alts.intercalate_branchTexts : ∀ a : Alts, List.intercalate ['|'] a.branchTexts = a.text
  | .one b => by simp [branchTexts, List.intercalate, Alts.text]
  | .cons b a => by
    have htail := a.intercalate_branchTexts
    have hcons : ∀ c d k, List.intercalate ['|'] (c :: d :: k) =
        c ++ '|' :: List.intercalate ['|'] (d :: k) := fun c d k => by simp [List.intercalate]
    rw [branchTexts, Alts.text, ← htail]
    cases a with
    | one b' => exact hcons _ _ _
    | cons b' a => exact hcons _ _ _

theorem map_text_parts_sym (s : Sym) (q : Quant) :
    (q.parts Item.requant (.sym s .once)).map Item.text = q.parts addSuffix s.text := by
  have hrep : ∀ t : Suffix, (Item.requant t (.sym s .once)).text = addSuffix t s.text :=
    fun t => rfl
  have hmap : (q.parts Item.requant (.sym s .once)).map Item.text =
      q.parts addSuffix (Item.sym s .once).text :=
    Quant.map_parts (fun t => by rw [hrep t, Item.text, Quant.text, List.append_nil]) q
  rwa [Item.text, Quant.text, List.append_nil] at hmap

theorem map_text_parts_group (body : Alts) (q : Quant) :
    (q.parts Item.requant (.group false body .once)).map Item.text =
      q.parts addSuffix (['(', '?', ':'] ++ (body.text ++ [')'])) := by
  have hrep : ∀ t : Suffix, (Item.requant t (.group false body .once)).text =
      addSuffix t (Item.group false body .once).text := by
    intro t
    simp [Item.requant, Item.text, addSuffix, Quant.text]
  exact Quant.map_parts hrep q

theorem joinAlternatives_eq {ts : List (List Char)} (hA : A.mapM reverseParts = .ok ts)
    (r : List Char) : joinAlternatives A r = .ok (List.intercalate ['|'] ts, r) := by
  rw [joinAlternatives, hA]
  rfl

theorem mapM_reverseParts_nil : ([] : List (List (List Char))).mapM reverseParts = .ok [] := rfl

theorem mapM_reverseParts_concat {ts : List (List Char)} (hA : A.mapM reverseParts = .ok ts)
    {is : List Item} (hb : nest is = some b) :
    (A ++ [is.map Item.text]).mapM reverseParts = .ok (ts ++ [b.text]) := by
  rw [List.mapM_append, hA, List.mapM_cons, reverseParts_eq hb]
  rfl

mutual

/-- The loop puts the parts of an element behind the sequence. -/
theorem goes_item (A : List (List (List Char))) (S : List (List Char)) : ∀ (i : Item)
    {is : List Item} (_ : i.parts = some is) {r : List Char} (_ : NotBefore ['?'] r),
    Goes (A, S, i.text ++ r) (A, S ++ is.map Item.text, r)
  | .sym s q, is, his, r, hr => by
    rw [Item.parts] at his
    obtain rfl := Option.some.inj his
    rw [Item.text, List.append_assoc, map_text_parts_sym]
    exact (goes_sym A S s (q.text ++ r)).trans (goes_quant A S s.text q hr)
  | .group capture body q, is, his, r, hr => by
    rw [Item.parts, Option.map_eq_some_iff] at his
    obtain ⟨body', hbody, rfl⟩ := his
    rw [map_text_parts_group]
    have hquant := goes_quant A S (['(', '?', ':'] ++ (body'.text ++ [')'])) q hr
    refine Goes.trans ?_ hquant
    -- The body is rewritten by a call of its own.
    have hcall : ∀ n, (body.text ++ ')' :: (q.text ++ r)).length < n →
        process n [] [] (body.text ++ ')' :: (q.text ++ r)) =
          .ok (body'.text, ')' :: (q.text ++ r)) := by
      intro n hn
      have := process_alts body hbody mapM_reverseParts_nil (Or.inr ⟨q.text ++ r, rfl⟩) n hn
      rwa [List.nil_append, Alts.intercalate_branchTexts] at this
    cases capture with
    | true =>
      have htext : (Item.group true body q).text ++ r =
          '(' :: (body.text ++ ')' :: (q.text ++ r)) := by
        rw [Item.text, openText, if_pos rfl, List.append_assoc, List.append_assoc]
        rfl
      rw [htext]
      refine goes_of_round ?_ fun n hn => ?_
      · simp only [List.length_append, List.length_cons]
        omega
      · have hplain : ¬ (body.text ++ ')' :: (q.text ++ r)).take 2 = ['?', ':'] := by
          obtain ⟨c, t, hc, hnot⟩ := body.exists_text
          rw [hc]
          intro heq
          rw [(List.cons.inj heq).1] at hnot
          exact absurd hnot (by decide)
        rw [process, if_neg (by decide), if_neg (by decide), if_neg (by decide), if_pos rfl]
        show (process n [] [] (if _ then _ else _) >>= _) = _
        rw [if_neg hplain, hcall n hn]
        rfl
    | false =>
      have htext : (Item.group false body q).text ++ r =
          '(' :: '?' :: ':' :: (body.text ++ ')' :: (q.text ++ r)) := by
        rw [Item.text, openText, if_neg (by decide), List.append_assoc, List.append_assoc]
        rfl
      rw [htext]
      refine goes_of_round ?_ fun n hn => ?_
      · simp only [List.length_append, List.length_cons]
        omega
      · rw [process, if_neg (by decide), if_neg (by decide), if_neg (by decide), if_pos rfl]
        show (process n [] [] (body.text ++ ')' :: (q.text ++ r)) >>= _) = _
        rw [hcall n (lt_trans (by simp only [List.length_cons]; omega) hn)]
        rfl

theorem goes_branch (A : List (List (List Char))) (S : List (List Char)) : ∀ (b : Branch)
    {is : List Item} (_ : b.parts = some is) {r : List Char} (_ : NotBefore ['?'] r),
    Goes (A, S, b.text ++ r) (A, S ++ is.map Item.text, r)
  | .one i, is, his, r, hr => goes_item A S i his hr
  | .cons i b, is, his, r, hr => by
    rw [Branch.parts, Option.bind_eq_some_iff] at his
    obtain ⟨js, hjs, hrest⟩ := his
    obtain ⟨ks, hks, rfl⟩ := Option.map_eq_some_iff.mp hrest
    rw [Branch.text, List.append_assoc i.text, List.map_append, ← List.append_assoc S]
    have hnot : NotBefore ['?'] (b.text ++ r) := b.notBefore_text (by decide) r
    exact (goes_item A S i hjs hnot).trans (goes_branch A (S ++ js.map Item.text) b hks hr)

/-- `process` from the beginning of an alternation on, behind some rewritten alternatives. -/
theorem process_alts : ∀ (a : Alts) {a' : Alts} (_ : a.reversed = some a')
    {A : List (List (List Char))} {ts : List (List Char)} (_ : A.mapM reverseParts = .ok ts)
    {r : List Char} (_ : EndsAlts r) (n : Nat) (_ : (a.text ++ r).length < n),
    process n A [] (a.text ++ r) = .ok (List.intercalate ['|'] (ts ++ a'.branchTexts), r)
  | .one b, a', ha, A, ts, hA, r, hr, n, hn => by
    obtain ⟨is, b', his, hnest, rfl⟩ := Alts.reversed_one ha
    have hnot : NotBefore ['?'] r := fun c hc hmem =>
      EndsBranch.notBefore (Or.inl hr) c hc (by rw [List.mem_singleton.mp hmem]; decide)
    obtain ⟨n', hn', heq⟩ := goes_branch A [] b his hnot n hn
    obtain ⟨k, rfl⟩ : ∃ k, n' = k + 1 := ⟨n' - 1, by have : 0 < n' := Nat.zero_lt_of_lt hn'; omega⟩
    -- The loop ends at the end of the pattern or at `)`.
    have hend : process (k + 1) A (is.map Item.text) r =
        joinAlternatives (A ++ [is.map Item.text]) r := by
      rcases hr with rfl | ⟨t, rfl⟩
      · rfl
      · rfl
    exact heq.trans (hend.trans (joinAlternatives_eq (mapM_reverseParts_concat hA hnest) r))
  | .cons b a, a', ha, A, ts, hA, r, hr, n, hn => by
    obtain ⟨is, b', a', his, hnest, ha', rfl⟩ := Alts.reversed_cons ha
    have htext : (Alts.cons b a).text ++ r = b.text ++ '|' :: (a.text ++ r) := by
      rw [Alts.text, List.append_assoc]
      rfl
    have hnot : NotBefore ['?'] ('|' :: (a.text ++ r)) := by
      rintro _ ⟨⟩
      decide
    rw [htext] at hn ⊢
    obtain ⟨n', hn', heq⟩ := goes_branch A [] b his hnot n hn
    obtain ⟨k, rfl⟩ : ∃ k, n' = k + 1 := ⟨n' - 1, by have : 0 < n' := Nat.zero_lt_of_lt hn'; omega⟩
    have hbar : process (k + 1) A (is.map Item.text) ('|' :: (a.text ++ r)) =
        process k (A ++ [is.map Item.text]) [] (a.text ++ r) := rfl
    have htail := process_alts a ha' (mapM_reverseParts_concat hA hnest) hr k
      (Nat.lt_of_succ_lt_succ hn')
    rw [List.append_assoc] at htail
    exact heq.trans (hbar.trans htail)

end

/-- The text of a pattern is rewritten to the text of the rewritten tree. -/
theorem regexToReversedPartialRegex_text {a a' : Alts} (h : a.reversed = some a') :
    regexToReversedPartialRegex a.text = .ok (['^', '('] ++ (a'.text ++ [')'])) := by
  have hprocess := process_alts a h mapM_reverseParts_nil (Or.inl rfl) (a.text.length + 1)
    (by rw [List.append_nil]; exact Nat.lt_succ_self _)
  rw [List.nil_append, Alts.intercalate_branchTexts, List.append_nil] at hprocess
  rw [regexToReversedPartialRegex, hprocess]
  rfl

/-- A pattern with its rewritten tree. -/
def CommonRegex.of (a a' : Alts) (h : a.reversed = some a') : CommonRegex where
  pattern := a.text
  rx := a
  rxReversedPartial := a'
  rx_text := rfl
  rxReversedPartial_text := regexToReversedPartialRegex_text h

/-- A `CommonRegex` is known from its pattern. -/
theorem CommonRegex.eq_of_pattern {c : CommonRegex} {a a' : Alts} (h : a.reversed = some a')
    (hc : c.pattern = a.text) : c.rx = a ∧ c.rxReversedPartial = a' := by
  have hrx : c.rx.text ++ [] = a.text ++ [] := by rw [c.rx_text, hc]
  have hrev := c.rxReversedPartial_text
  rw [hc, regexToReversedPartialRegex_text h] at hrev
  have htext : a'.text ++ [')'] = c.rxReversedPartial.text ++ [')'] :=
    List.append_cancel_left (Except.ok.inj hrev)
  have hrev' : c.rxReversedPartial.text ++ [] = a'.text ++ [] := by
    rw [List.append_cancel_right htext]
  exact ⟨(Alts.text_inj (Or.inl rfl) (Or.inl rfl) hrx).1,
    (Alts.text_inj (Or.inl rfl) (Or.inl rfl) hrev').1⟩

end PxqLlama.Common
