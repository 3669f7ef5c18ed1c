import PxqLlama.Lib.Utf8
import PxqLlama.Proofs.Grammar.Mask
import Mathlib.Data.List.TakeWhile

/-!
# `Proofs.Grammar.Replay`: where the pieces are cut does not matter

A text in UTF-8 decodes byte by byte (`Decodes`), so its pieces decode to the parts of its code
points. What the stacks do on them is `Walk`, which goes over a list of code points in parts as well
as at once.

Two things are not the same for each cut. A piece drops the empty stack even when no code point of
it is complete, and a throw comes with the first piece that leaves no stack. Neither shows at the
end: behind a cut at least one more code point comes to be complete (`Decodes.ne_nil`), and no stack
that is empty takes it. `acceptPieces_spec` gives the outcome by the text alone.
-/

namespace PxqLlama.Grammar

open Utf8

/-! ### Decoding -/

/-- The bytes decode to code points, and to a part of one at the end, with no error. -/
inductive Decodes : PartialUtf8 → List UInt8 → List Nat → PartialUtf8 → Prop
  | nil {st : PartialUtf8} : Decodes st [] [] st
  | cont {value : Nat} {nRemain : Int} {b : UInt8} {bs : List UInt8} {cs : List Nat}
      {st : PartialUtf8} (hopen : 0 < nRemain) (hb : b.toNat / 64 = 2)
      (h : Decodes ⟨addByte value b, nRemain - 1⟩ bs cs st) :
      Decodes ⟨value, nRemain⟩ (b :: bs)
        ((if nRemain = 1 then [addByte value b] else []) ++ cs) st
  | lead {start st : PartialUtf8} {b : UInt8} {bs : List UInt8} {cs : List Nat}
      (hclosed : start.nRemain ≤ 0) (hb : b ≠ 0) (hlead : 0 ≤ followBytes b)
      (h : Decodes ⟨b.toNat % 2 ^ (7 - followBytes b).toNat, followBytes b⟩ bs cs st) :
      Decodes start (b :: bs)
        ((if followBytes b = 0 then [b.toNat % 2 ^ (7 - followBytes b).toNat] else []) ++ cs) st

variable {start st : PartialUtf8} {cs : List Nat} {bs : List UInt8} {s : Stack} {current : Stacks}
  {grammar : LlamaGrammar}

theorem Decodes.of_nil (h : Decodes start [] cs st) : cs = [] ∧ start = st := by
  cases h with
  | nil => exact ⟨rfl, rfl⟩

theorem Decodes.ne_zero (h : Decodes start bs cs st) : ∀ b ∈ bs, b ≠ 0 := by
  induction h with
  | nil => exact fun b hb => absurd hb List.not_mem_nil
  | cont _ hb _ ih =>
    refine List.forall_mem_cons.2 ⟨?_, ih⟩
    rintro rfl
    cases hb
  | lead _ hb _ _ ih => exact List.forall_mem_cons.2 ⟨hb, ih⟩

theorem decodeChars_of_decodes (h : Decodes start bs cs st) (codePoints : List Nat) :
    decodeChars bs start codePoints = (codePoints ++ cs ++ [0], st) := by
  induction h generalizing codePoints with
  | nil => simp [decodeChars]
  | @cont value nRemain b bs cs st hopen hb _ ih =>
    simp only [decodeChars, if_pos hopen]
    rw [ih]
    by_cases hone : nRemain = 1 <;> simp [hone]
  | @lead start st b bs cs hclosed hb hlead _ ih =>
    simp only [decodeChars, if_neg (Int.not_lt.2 hclosed), if_neg (Int.not_lt.2 hlead)]
    rw [ih]
    by_cases hzero : followBytes b = 0 <;> simp [hzero]

/-- The first loop of `decode_utf8` is the second one, on bytes that go on. -/
theorem decodeChars_continueChar {k value : Nat} (h : Decodes ⟨value, (k + 1 : Nat)⟩ bs cs st) :
    ∃ pos value' nRemain', continueChar bs value (k + 1) = some (pos, value', nRemain') ∧
      decodeChars pos ⟨value', nRemain'⟩ (if nRemain' = 0 then [value'] else []) =
        (cs ++ [0], st) := by
  induction bs generalizing k value cs with
  | nil =>
    cases h with
    | nil => exact ⟨[], value, k + 1, rfl, by simp [decodeChars]⟩
  | cons b bs ih =>
    cases h with
    | lead hclosed => exact absurd hclosed (by simp only; omega)
    | cont hopen hb h =>
      have hgo : continueChar (b :: bs) value (k + 1) = continueChar bs (addByte value b) k := by
        rw [continueChar, if_neg (by simpa using hb)]
      rw [hgo]
      cases k with
      | zero =>
        refine ⟨bs, addByte value b, 0, continueChar_zero _ _, ?_⟩
        have hdecoded := decodeChars_of_decodes h [addByte value b]
        simpa using hdecoded
      | succ k =>
        have hless : ((k + 1 + 1 : Nat) : Int) - 1 = (k + 1 : Nat) := by omega
        rw [hless] at h
        obtain ⟨pos, value', nRemain', hcontinue, hdecoded⟩ := ih h
        refine ⟨pos, value', nRemain', hcontinue, ?_⟩
        rw [if_neg (show ¬ ((k + 1 + 1 : Nat) : Int) = 1 by omega)]
        exact hdecoded

/-- The decoder of the source computes the decoding. -/
theorem decodeUtf8_of_decodes (h : Decodes start bs cs st) :
    decodeUtf8 bs start = (cs ++ [0], st) := by
  have hpos : bs.takeWhile (· ≠ 0) = bs :=
    List.takeWhile_eq_self_iff.2 fun b hb => decide_eq_true (h.ne_zero b hb)
  obtain ⟨value, nRemain⟩ := start
  rw [decodeUtf8, hpos]
  by_cases hopen : 0 < nRemain
  · obtain ⟨k, rfl⟩ : ∃ k : Nat, nRemain = (k + 1 : Nat) := ⟨nRemain.toNat - 1, by omega⟩
    obtain ⟨pos, value', nRemain', hcontinue, hdecoded⟩ := decodeChars_continueChar h
    simp only [Int.toNat_natCast, hcontinue, if_pos hopen]
    exact hdecoded
  · have hzero : nRemain.toNat = 0 := by omega
    simp only [hzero, continueChar_zero, if_neg hopen]
    exact decodeChars_of_decodes h []

/-- The parts of a text decode one after another. -/
theorem Decodes.of_append {xs ys : List UInt8} (h : Decodes start (xs ++ ys) cs st) :
    ∃ mid cs₁ cs₂, cs = cs₁ ++ cs₂ ∧
      Decodes start xs cs₁ mid ∧ Decodes mid ys cs₂ st := by
  induction xs generalizing start cs with
  | nil => exact ⟨start, [], cs, rfl, .nil, h⟩
  | cons x xs ih =>
    cases h with
    | cont hopen hb h =>
      obtain ⟨mid, cs₁, cs₂, rfl, h₁, h₂⟩ := ih h
      exact ⟨mid, _, cs₂, (List.append_assoc _ _ _).symm, .cont hopen hb h₁, h₂⟩
    | lead hclosed hb hlead h =>
      obtain ⟨mid, cs₁, cs₂, rfl, h₁, h₂⟩ := ih h
      exact ⟨mid, _, cs₂, (List.append_assoc _ _ _).symm, .lead hclosed hb hlead h₁, h₂⟩

theorem Decodes.append {start mid st : PartialUtf8} {xs ys : List UInt8} {cs₁ cs₂ : List Nat}
    (h₁ : Decodes start xs cs₁ mid) (h₂ : Decodes mid ys cs₂ st) :
    Decodes start (xs ++ ys) (cs₁ ++ cs₂) st := by
  induction h₁ with
  | nil => exact h₂
  | cont hopen hb _ ih =>
    rw [List.append_assoc]
    exact .cont hopen hb (ih h₂)
  | lead hclosed hb hlead _ ih =>
    rw [List.append_assoc]
    exact .lead hclosed hb hlead (ih h₂)

/-- Bytes that end with a whole character have one. -/
theorem Decodes.ne_nil (h : Decodes start bs cs st) (hne : bs ≠ []) (hclosed : st.nRemain ≤ 0) :
    cs ≠ [] := by
  induction h with
  | nil => exact absurd rfl hne
  | @cont value nRemain b bs cs st hopen hb h ih =>
    by_cases hone : nRemain = 1
    · simp [hone]
    · rw [if_neg hone, List.nil_append]
      refine ih (fun hnil => ?_) hclosed
      subst hnil
      cases h with
      | nil => simp only at hclosed; omega
  | @lead start st b bs cs hbefore hb hlead h ih =>
    by_cases hzero : followBytes b = 0
    · simp [hzero]
    · rw [if_neg hzero, List.nil_append]
      refine ih (fun hnil => ?_) hclosed
      subst hnil
      cases h with
      | nil => simp only at hclosed; omega

/-! ### Texts in UTF-8 -/

theorem followBytes_of_leadLen (b : UInt8) (h : leadLen b ≠ 0) :
    followBytes b = (leadLen b : Int) - 1 := by
  have hall : ∀ n : Fin 256, leadLen (UInt8.ofNat n) ≠ 0 →
      followBytes (UInt8.ofNat n) = (leadLen (UInt8.ofNat n) : Int) - 1 := by decide +kernel
  have hb := hall ⟨b.toNat, b.toNat_lt⟩
  simp only [UInt8.ofNat_toNat] at hb
  exact hb h

theorem toNat_of_isCont (b : UInt8) (h : isCont b = true) : b.toNat / 64 = 2 := by
  have hall : ∀ n : Fin 256, isCont (UInt8.ofNat n) = true →
      (UInt8.ofNat n).toNat / 64 = 2 := by decide +kernel
  have hb := hall ⟨b.toNat, b.toNat_lt⟩
  simp only [UInt8.ofNat_toNat] at hb
  exact hb h

/-- The bytes decode, and no character is left open. -/
def DecodesWhole (start : PartialUtf8) (bs : List UInt8) : Prop :=
  ∃ cs st, Decodes start bs cs st ∧ st.nRemain ≤ 0

/-- The continuation bytes of a character that was begun. -/
theorem decodesWhole_conts {rest : List UInt8} (hcont : ∀ b ∈ bs, isCont b = true) (value : Nat)
    (hrest : ∀ value, DecodesWhole ⟨value, 0⟩ rest) :
    DecodesWhole ⟨value, bs.length⟩ (bs ++ rest) := by
  induction bs generalizing value with
  | nil => exact hrest value
  | cons b bs ih =>
    obtain ⟨hb, hbs⟩ := List.forall_mem_cons.1 hcont
    obtain ⟨cs, st, h, hclosed⟩ := ih hbs (addByte value b)
    have hless : (((b :: bs).length : Nat) : Int) - 1 = bs.length := by
      rw [List.length_cons]
      omega
    rw [← hless] at h
    exact ⟨_, st, .cont (by rw [List.length_cons]; omega) (toNat_of_isCont b hb) h, hclosed⟩

/-- A text in UTF-8 with no zero in it decodes. -/
theorem decodesWhole_of_isUtf8 {text : List UInt8} (h : IsUtf8 text) (hzero : ∀ b ∈ text, b ≠ 0)
    (hstart : start.nRemain ≤ 0) : DecodesWhole start text := by
  induction h generalizing start with
  | nil => exact ⟨[], start, .nil, hstart⟩
  | @append c bs hc _ ih =>
    cases c with
    | nil => exact absurd rfl hc.ne_nil
    | cons b conts =>
      obtain ⟨hlen, hcont⟩ := hc
      rw [List.cons_append, List.forall_mem_cons] at hzero
      obtain ⟨hb, hrest⟩ := hzero
      have hfollow : followBytes b = conts.length := by
        rw [followBytes_of_leadLen b (by omega), hlen]
        omega
      have hbs : ∀ value, DecodesWhole ⟨value, 0⟩ bs := fun value =>
        ih (fun x hx => hrest x (List.mem_append_right _ hx)) (Int.le_refl 0)
      obtain ⟨cs, st, h, hclosed⟩ := decodesWhole_conts hcont
        (b.toNat % 2 ^ (7 - followBytes b).toNat) hbs
      rw [← hfollow] at h
      exact ⟨_, st, .lead hstart hb (by omega) h, hclosed⟩

/-! ### The stacks on code points -/

variable {rules : Rules}

theorem mono_advanceStack (s : Stack) (newStacks : Stacks) :
    Mono fun n => advanceStack rules n s newStacks := fun _ _ h => explore_mono h

theorem returns_advanceStack (s : Stack) (newStacks newStacks' : Stacks)
    (h : Returns fun n => advanceStack rules n s newStacks) :
    Returns fun n => advanceStack rules n s newStacks' := by
  obtain ⟨out, hout⟩ := h
  obtain ⟨n, hn⟩ := hout.exists_eq
  have hsome : (advanceStack rules n s newStacks').isSome := by
    have heq := @explore_isSome _ _ (visitStack rules) [s] [] n newStacks newStacks'
    rw [show explore (visitStack rules) n [s] [] newStacks = some out from hn] at heq
    exact heq.symm
  obtain ⟨out', hout'⟩ := Option.isSome_iff_exists.1 hsome
  exact ⟨out', (mono_advanceStack s newStacks').settles hout'⟩

theorem mono_acceptChr (s : Stack) (c : Nat) (newStacks : Stacks) :
    Mono fun n => acceptChr rules n s c newStacks := by
  cases s with
  | nil => exact mono_const _
  | cons p rest =>
    simp only [acceptChr]
    split
    · exact mono_const _
    · split
      · exact mono_advanceStack _ _
      · exact mono_const _

theorem returns_acceptChr (s : Stack) (c : Nat) (newStacks newStacks' : Stacks)
    (h : Returns fun n => acceptChr rules n s c newStacks) :
    Returns fun n => acceptChr rules n s c newStacks' := by
  cases s with
  | nil => exact ⟨_, settles_pure _⟩
  | cons p rest =>
    simp only [acceptChr] at h ⊢
    by_cases htoken : isTokenElement (elementAt rules p) = true
    · simp only [htoken, if_true]
      exact ⟨_, settles_pure _⟩
    · by_cases hmatch : (matchChar rules p c).1 = true
      · simp only [htoken, hmatch, if_true] at h ⊢
        exact returns_advanceStack _ newStacks newStacks' h
      · simp only [htoken, hmatch]
        exact ⟨_, settles_pure _⟩

variable {out : Stacks} {pieces : List (Nat × List UInt8)}

theorem mem_acceptChr {c : Nat} {newStacks : Stacks}
    (h : Settles (fun n => acceptChr rules n s c newStacks) out) (t : Stack) :
    t ∈ out ↔ t ∈ newStacks ∨ CharStep rules c s t := by
  obtain ⟨n, hn⟩ := h.exists_eq
  constructor
  · exact acceptChr_sound hn t
  · rintro (hold | ⟨p, rest, rfl, htoken, hmatch, hleads⟩)
    · cases s with
      | nil => cases hn; exact hold
      | cons p rest =>
        simp only [acceptChr] at hn
        split at hn
        · cases hn; exact hold
        · split at hn
          · exact (mem_advanceStack hn).mpr (.inl hold)
          · cases hn; exact hold
    · simp only [acceptChr, htoken, hmatch, if_true, reduceCtorEq, if_false] at hn
      exact (mem_advanceStack hn).mpr (.inr hleads)

/-- The expansions on the way of a stack over code points all come to an end. -/
def TotalOn (rules : Rules) : List Nat → Stack → Prop
  | [], _ => True
  | c :: cs, s => Returns (fun n => acceptChr rules n s c []) ∧
      ∀ t, CharStep rules c s t → TotalOn rules cs t

/-- Characters in two parts: total on the first, and on what is left for the second. -/
theorem totalOn_append {cs' : List Nat} :
    TotalOn rules (cs ++ cs') s ↔
      TotalOn rules cs s ∧ ∀ t, Walk rules cs s t → TotalOn rules cs' t := by
  induction cs generalizing s with
  | nil =>
    constructor
    · exact fun h => ⟨trivial, fun t ht => (show s = t from ht) ▸ h⟩
    · exact fun h => h.2 s rfl
  | cons c cs ih =>
    rw [List.cons_append, TotalOn, TotalOn]
    constructor
    · rintro ⟨hc, hall⟩
      refine ⟨⟨hc, fun t ht => (ih.1 (hall t ht)).1⟩, ?_⟩
      rintro t ⟨s', hstep, hwalk⟩
      exact (ih.1 (hall s' hstep)).2 t hwalk
    · rintro ⟨⟨hc, hall⟩, hwalks⟩
      exact ⟨hc, fun t ht => ih.2 ⟨hall t ht, fun u hu => hwalks u ⟨t, ht, hu⟩⟩⟩

/-- A walk over two parts goes through a stack in between. -/
theorem walk_append {cs' : List Nat} {t : Stack} :
    Walk rules (cs ++ cs') s t ↔ ∃ u, Walk rules cs s u ∧ Walk rules cs' u t := by
  induction cs generalizing s with
  | nil =>
    constructor
    · exact fun h => ⟨s, rfl, h⟩
    · rintro ⟨u, rfl, h⟩
      exact h
  | cons c cs ih =>
    constructor
    · rintro ⟨s', hstep, hwalk⟩
      obtain ⟨u, hu, ht⟩ := ih.1 hwalk
      exact ⟨u, ⟨s', hstep, hu⟩, ht⟩
    · rintro ⟨u, ⟨s', hstep, hu⟩, ht⟩
      exact ⟨s', hstep, ih.2 ⟨u, hu, ht⟩⟩

/-- The empty stack takes no code point. -/
theorem not_walk_nil {t : Stack} (hne : cs ≠ []) : ¬ Walk rules cs [] t := by
  cases cs with
  | nil => exact absurd rfl hne
  | cons c cs =>
    rintro ⟨s', ⟨p, rest, hcons, -⟩, -⟩
    cases hcons

theorem totalOn_nil (cs : List Nat) : TotalOn rules cs [] := by
  cases cs with
  | nil => trivial
  | cons c cs =>
    refine ⟨⟨[], settles_pure _⟩, ?_⟩
    rintro t ⟨p, rest, hcons, -⟩
    cases hcons

theorem mono_acceptChrAll (current : Stacks) (c : Nat) :
    Mono fun n => acceptChrAll rules n current c :=
  Mono.foldlM (f := fun n newStacks stack => acceptChr rules n stack c newStacks)
    (fun b a => mono_acceptChr a c b) current []

theorem mem_acceptChrAll {c : Nat} (h : Settles (fun n => acceptChrAll rules n current c) out)
    (t : Stack) : t ∈ out ↔ ∃ s ∈ current, CharStep rules c s t := by
  have hmem := settles_foldlM_mem
    (f := fun n newStacks stack => acceptChr rules n stack c newStacks)
    (fun b a => mono_acceptChr a c b) (Q := CharStep rules c)
    (fun b a out hout => mem_acceptChr hout) h t
  simpa using hmem

theorem returns_acceptChrAll {c : Nat} :
    Returns (fun n => acceptChrAll rules n current c) ↔
      ∀ s ∈ current, Returns (fun n => acceptChr rules n s c []) :=
  returns_foldlM_iff (f := fun n newStacks stack => acceptChr rules n stack c newStacks)
    (fun b a => mono_acceptChr a c b)
    (fun b a => ⟨returns_acceptChr a c b [], returns_acceptChr a c [] b⟩)

theorem mono_acceptChars (cs : List Nat) (current : Stacks) :
    Mono fun n => cs.foldlM (acceptChrAll rules n) current :=
  Mono.foldlM (f := acceptChrAll rules) (fun b a => mono_acceptChrAll b a) cs current

/-- The stacks after some characters are those that a walk leads to. -/
theorem mem_acceptChars (h : Settles (fun n => cs.foldlM (acceptChrAll rules n) current) out)
    (t : Stack) : t ∈ out ↔ ∃ s ∈ current, Walk rules cs s t := by
  induction cs generalizing current with
  | nil =>
    rw [h.unique (settles_pure current)]
    simp [Walk]
  | cons c cs ih =>
    obtain ⟨next, hnext, hrest⟩ := ((mono_acceptChrAll current c).settles_bind_iff
      (fun next => mono_acceptChars cs next)).1 h
    rw [ih hrest]
    constructor
    · rintro ⟨s', hs', hwalk⟩
      obtain ⟨s, hs, hstep⟩ := (mem_acceptChrAll hnext s').1 hs'
      exact ⟨s, hs, s', hstep, hwalk⟩
    · rintro ⟨s, hs, s', hstep, hwalk⟩
      exact ⟨s', (mem_acceptChrAll hnext s').2 ⟨s, hs, hstep⟩, hwalk⟩

/-- Some characters settle exactly when no stack hangs on them. -/
theorem returns_acceptChars :
    Returns (fun n => cs.foldlM (acceptChrAll rules n) current) ↔
      ∀ s ∈ current, TotalOn rules cs s := by
  induction cs generalizing current with
  | nil => exact ⟨fun _ _ _ => trivial, fun _ => ⟨current, settles_pure current⟩⟩
  | cons c cs ih =>
    have hbind : ∀ out, Settles (fun n => (c :: cs).foldlM (acceptChrAll rules n) current) out ↔
        ∃ next, Settles (fun n => acceptChrAll rules n current c) next ∧
          Settles (fun n => cs.foldlM (acceptChrAll rules n) next) out := fun out =>
      (mono_acceptChrAll current c).settles_bind_iff (fun next => mono_acceptChars cs next)
    constructor
    · rintro ⟨out, hout⟩ s hs
      obtain ⟨next, hnext, hrest⟩ := (hbind out).1 hout
      refine ⟨returns_acceptChrAll.1 ⟨next, hnext⟩ s hs, fun t ht => ?_⟩
      exact ih.1 ⟨out, hrest⟩ t ((mem_acceptChrAll hnext t).2 ⟨s, hs, ht⟩)
    · intro h
      obtain ⟨next, hnext⟩ := returns_acceptChrAll.2 fun s hs => (h s hs).1
      obtain ⟨out, hout⟩ := ih.2 fun t ht => by
        obtain ⟨s, hs, hstep⟩ := (mem_acceptChrAll hnext t).1 ht
        exact (h s hs).2 t hstep
      exact ⟨out, (hbind out).2 ⟨next, hnext, hout⟩⟩

/-! ### A piece -/

/-- All elements are references, character elements and ends. -/
def OnlyChars (rules : Rules) : Prop := ∀ p, isTokenElement (elementAt rules p) = false

theorem mono_acceptOnStack (token : Nat) (cs : List Nat) (stacksNew : Stacks) (s : Stack) :
    Mono fun n => acceptOnStack rules n token cs stacksNew s := by
  cases s with
  | nil => exact mono_const _
  | cons p rest =>
    simp only [acceptOnStack]
    split
    · split
      · exact mono_advanceStack _ _
      · exact mono_const _
    · exact (mono_acceptChars cs [p :: rest]).map _

section

variable (hchars : OnlyChars rules)

include hchars

theorem mem_acceptOnStack {token : Nat} {stacksNew out : Stacks}
    (h : Settles (fun n => acceptOnStack rules n token cs stacksNew s) out) (t : Stack) :
    t ∈ out ↔ t ∈ stacksNew ∨ s ≠ [] ∧ Walk rules cs s t := by
  cases s with
  | nil =>
    rw [h.unique (settles_pure stacksNew)]
    simp
  | cons p rest =>
    simp only [acceptOnStack, hchars p, reduceCtorEq, if_false] at h
    obtain ⟨surviving, hsurviving, rfl⟩ := (mono_acceptChars cs [p :: rest]).settles_map_iff.1 h
    rw [mem_foldl_addNew, mem_acceptChars hsurviving]
    simp

theorem returns_acceptOnStack (token : Nat) (cs : List Nat) (stacksNew : Stacks) (s : Stack) :
    Returns (fun n => acceptOnStack rules n token cs stacksNew s) ↔ TotalOn rules cs s := by
  cases s with
  | nil => exact ⟨fun _ => totalOn_nil cs, fun _ => ⟨stacksNew, settles_pure stacksNew⟩⟩
  | cons p rest =>
    simp only [acceptOnStack, hchars p, reduceCtorEq, if_false]
    rw [← List.forall_mem_singleton (p := TotalOn rules cs) (a := p :: rest), ← returns_acceptChars]
    constructor
    · rintro ⟨out, hout⟩
      obtain ⟨surviving, hsurviving, -⟩ := (mono_acceptChars cs [p :: rest]).settles_map_iff.1 hout
      exact ⟨surviving, hsurviving⟩
    · rintro ⟨surviving, hsurviving⟩
      exact ⟨_, hsurviving.map _⟩

end

theorem mono_acceptToken (grammar : LlamaGrammar) (token : Nat) (piece : List UInt8) :
    Mono fun n => acceptToken n grammar token piece :=
  (Mono.foldlM (f := fun n stacksNew s => acceptOnStack grammar.rules n token
    (decodeUtf8 piece grammar.partialUtf8).1.dropLast stacksNew s)
    (fun b a => mono_acceptOnStack token _ b a) grammar.grammarStacks []).map _

/-- The stacks that are not empty walk over the code points of the piece. -/
theorem acceptToken_spec {accepted : LlamaGrammar} (hchars : OnlyChars grammar.rules)
    {token : Nat} {piece : List UInt8} (hdecodes : Decodes grammar.partialUtf8 piece cs st)
    (h : Settles (fun n => acceptToken n grammar token piece) accepted) :
    accepted.rules = grammar.rules ∧ accepted.partialUtf8 = st ∧
      ∀ t, t ∈ accepted.grammarStacks ↔
        ∃ s ∈ grammar.grammarStacks, s ≠ [] ∧ Walk grammar.rules cs s t := by
  simp only [acceptToken, decodeUtf8_of_decodes hdecodes, List.dropLast_concat] at h
  obtain ⟨out, hout, rfl⟩ := (Mono.foldlM
    (f := fun n stacksNew s => acceptOnStack grammar.rules n token cs stacksNew s)
    (fun b a => mono_acceptOnStack token cs b a) grammar.grammarStacks []).settles_map_iff.1 h
  refine ⟨rfl, rfl, fun t => ?_⟩
  have hmem := settles_foldlM_mem
    (f := fun n stacksNew s => acceptOnStack grammar.rules n token cs stacksNew s)
    (fun b a => mono_acceptOnStack token cs b a)
    (Q := fun s t => s ≠ [] ∧ Walk grammar.rules cs s t)
    (fun b a out hout => mem_acceptOnStack hchars hout) hout t
  simpa using hmem

/-- A token is accepted or refused exactly when its characters settle on each stack. -/
theorem returns_acceptToken {grammar : LlamaGrammar} (hchars : OnlyChars grammar.rules)
    {token : Nat} {piece : List UInt8} {cs : List Nat} {st : PartialUtf8}
    (hdecodes : Decodes grammar.partialUtf8 piece cs st) :
    Returns (fun n => acceptToken n grammar token piece) ↔
      ∀ s ∈ grammar.grammarStacks, TotalOn grammar.rules cs s := by
  rw [← returns_foldlM_iff
    (f := fun n stacksNew s => acceptOnStack grammar.rules n token cs stacksNew s)
    (fun b a => mono_acceptOnStack token cs b a) (P := TotalOn grammar.rules cs)
    (fun b a => returns_acceptOnStack hchars token cs b a) (l := grammar.grammarStacks) (b := [])]
  simp only [acceptToken, decodeUtf8_of_decodes hdecodes, List.dropLast_concat]
  constructor
  · rintro ⟨out, hout⟩
    obtain ⟨left, hleft, -⟩ := (Mono.foldlM
      (f := fun n stacksNew s => acceptOnStack grammar.rules n token cs stacksNew s)
      (fun b a => mono_acceptOnStack token cs b a) grammar.grammarStacks []).settles_map_iff.1 hout
    exact ⟨left, hleft⟩
  · rintro ⟨left, hleft⟩
    exact ⟨_, hleft.map _⟩

/-! ### Pieces one after another -/

/-- The text of the pieces. -/
def pieceText (pieces : List (Nat × List UInt8)) : List UInt8 := pieces.flatMap Prod.snd

/-- What comes of stacks on code points and a partial character: a throw when no stack is left, and
otherwise the stacks that have walked over the code points, and the partial character. -/
def IsOutcome (rules : Rules) (before : Stack → Prop) (cs : List Nat) (st : PartialUtf8) :
    Option LlamaGrammar → Prop
  | none => ∀ s, before s → ∀ t, ¬ Walk rules cs s t
  | some accepted => accepted.rules = rules ∧ accepted.partialUtf8 = st ∧
      accepted.grammarStacks ≠ [] ∧
        ∀ t, t ∈ accepted.grammarStacks ↔ ∃ s, before s ∧ Walk rules cs s t

/-- The stacks that take a piece. -/
def Takers (grammar : LlamaGrammar) (s : Stack) : Prop := s ∈ grammar.grammarStacks ∧ s ≠ []

theorem mono_acceptPieces (grammar : LlamaGrammar) (pieces : List (Nat × List UInt8)) :
    Mono fun n => acceptPieces n grammar pieces := by
  induction pieces generalizing grammar with
  | nil => exact mono_const _
  | cons p rest ih =>
    refine (mono_acceptToken grammar p.1 p.2).bind fun accepted => ?_
    split
    · exact mono_const _
    · exact ih accepted

/-- The rest of a text that ends with a non-empty piece and a whole character has a code point. -/
theorem rest_ne_nil (hne : pieces ≠ []) (hlast : ∀ p ∈ pieces.getLast?, p.2 ≠ [])
    (h : Decodes start (pieceText pieces) cs st) (hclosed : st.nRemain ≤ 0) : cs ≠ [] := by
  refine h.ne_nil (fun hnil => ?_) hclosed
  have hmem := List.getLast_mem hne
  exact hlast _ (by rw [List.getLast?_eq_getLast_of_ne_nil hne]; rfl)
    (List.flatMap_eq_nil_iff.1 hnil _ hmem)

/-- The check behind a piece, and the pieces that follow. -/
def acceptRest (fuel : Nat) (accepted : LlamaGrammar) (rest : List (Nat × List UInt8)) :
    Option (Option LlamaGrammar) :=
  if accepted.grammarStacks = [] then some none else acceptPieces fuel accepted rest

theorem mono_acceptRest (accepted : LlamaGrammar) (rest : List (Nat × List UInt8)) :
    Mono fun n => acceptRest n accepted rest := by
  unfold acceptRest
  split
  · exact mono_const _
  · exact mono_acceptPieces accepted rest

/-- Behind a piece all stacks count, empty or not: where more is to come it has a code point. -/
theorem acceptRest_spec {rest : List (Nat × List UInt8)}
    (hdecodes : Decodes grammar.partialUtf8 (pieceText rest) cs st)
    (hrest : rest ≠ [] → grammar.grammarStacks ≠ [] → cs ≠ [] ∧
      (Returns (fun n => acceptPieces n grammar rest) ↔
        ∀ s ∈ grammar.grammarStacks, TotalOn grammar.rules cs s) ∧
      ∀ outcome, Settles (fun n => acceptPieces n grammar rest) outcome →
        IsOutcome grammar.rules (Takers grammar) cs st outcome) :
    (Returns (fun n => acceptRest n grammar rest) ↔
        ∀ s ∈ grammar.grammarStacks, TotalOn grammar.rules cs s) ∧
      ∀ outcome, Settles (fun n => acceptRest n grammar rest) outcome →
        IsOutcome grammar.rules (· ∈ grammar.grammarStacks) cs st outcome := by
  unfold acceptRest
  by_cases hnone : grammar.grammarStacks = []
  · simp only [if_pos hnone]
    refine ⟨⟨fun _ s hs => ?_, fun _ => ⟨none, settles_pure none⟩⟩, fun outcome h => ?_⟩
    · rw [hnone] at hs
      cases hs
    · rw [h.unique (settles_pure none)]
      intro s hs
      rw [hnone] at hs
      cases hs
  · simp only [if_neg hnone]
    by_cases hend : rest = []
    · subst hend
      obtain ⟨rfl, hbits⟩ := hdecodes.of_nil
      refine ⟨⟨fun _ _ _ => trivial, fun _ => ⟨_, settles_pure _⟩⟩, fun outcome h => ?_⟩
      rw [h.unique (settles_pure (some grammar))]
      exact ⟨rfl, hbits, hnone, fun t => by simp [Walk]⟩
    · obtain ⟨hne, hreturns, houtcome⟩ := hrest hend hnone
      refine ⟨hreturns, fun outcome h => ?_⟩
      -- The empty stack takes nothing of what is to come.
      have htakers : ∀ s t, (Takers grammar s ∧ Walk grammar.rules cs s t) ↔
          s ∈ grammar.grammarStacks ∧ Walk grammar.rules cs s t := by
        intro s t
        constructor
        · exact fun hs => ⟨hs.1.1, hs.2⟩
        · rintro ⟨hs, hwalk⟩
          refine ⟨⟨hs, ?_⟩, hwalk⟩
          rintro rfl
          exact not_walk_nil hne hwalk
      cases outcome with
      | none =>
        intro s hs t hwalk
        obtain ⟨htaker, hwalk⟩ := (htakers s t).2 ⟨hs, hwalk⟩
        exact houtcome none h s htaker t hwalk
      | some accepted =>
        obtain ⟨hrules, hst, hleft, hmem⟩ := houtcome _ h
        exact ⟨hrules, hst, hleft, fun t => by simp only [hmem, htakers]⟩

/-- Feeding pieces, of which the last is not empty, has an outcome that depends on their text. -/
theorem acceptPieces_spec {grammar : LlamaGrammar} (hchars : OnlyChars grammar.rules)
    {pieces : List (Nat × List UInt8)} (hne : pieces ≠ [])
    (hlast : ∀ p ∈ pieces.getLast?, p.2 ≠ []) {cs : List Nat} {st : PartialUtf8}
    (hdecodes : Decodes grammar.partialUtf8 (pieceText pieces) cs st) (hclosed : st.nRemain ≤ 0) :
    (Returns (fun n => acceptPieces n grammar pieces) ↔
        ∀ s ∈ grammar.grammarStacks, TotalOn grammar.rules cs s) ∧
      ∀ outcome, Settles (fun n => acceptPieces n grammar pieces) outcome →
        IsOutcome grammar.rules (Takers grammar) cs st outcome := by
  induction pieces generalizing grammar cs with
  | nil => exact absurd rfl hne
  | cons p rest ih =>
    obtain ⟨token, piece⟩ := p
    obtain ⟨mid, cs₁, cs₂, rfl, hpiece, hrest⟩ := Decodes.of_append hdecodes
    have hbind : ∀ outcome, Settles (fun n => acceptPieces n grammar ((token, piece) :: rest))
        outcome ↔ ∃ accepted, Settles (fun n => acceptToken n grammar token piece) accepted ∧
          Settles (fun n => acceptRest n accepted rest) outcome := fun outcome =>
      (mono_acceptToken grammar token piece).settles_bind_iff fun accepted =>
        mono_acceptRest accepted rest
    have hreturns := @returns_acceptToken grammar hchars token piece cs₁ mid hpiece
    have hspec : ∀ accepted, Settles (fun n => acceptToken n grammar token piece) accepted →
        (∀ t, t ∈ accepted.grammarStacks ↔
          ∃ s ∈ grammar.grammarStacks, s ≠ [] ∧ Walk grammar.rules cs₁ s t) ∧
        (Returns (fun n => acceptRest n accepted rest) ↔
          ∀ s ∈ accepted.grammarStacks, TotalOn grammar.rules cs₂ s) ∧
        ∀ outcome, Settles (fun n => acceptRest n accepted rest) outcome →
          IsOutcome grammar.rules (· ∈ accepted.grammarStacks) cs₂ st outcome := by
      intro accepted haccepted
      obtain ⟨hrules, hbits, hmem⟩ := acceptToken_spec hchars hpiece haccepted
      have hrest' : Decodes accepted.partialUtf8 (pieceText rest) cs₂ st := by
        rw [hbits]
        exact hrest
      rw [← hrules] at hchars hmem ⊢
      refine ⟨hmem, acceptRest_spec hrest' fun hmore _ => ?_⟩
      have hlast' : ∀ q ∈ rest.getLast?, q.2 ≠ [] := by
        intro q hq
        refine hlast q ?_
        rw [List.getLast?_cons, hq]
        rfl
      exact ⟨rest_ne_nil hmore hlast' hrest hclosed, ih hchars hmore hlast' hrest'⟩
    constructor
    · constructor
      · rintro ⟨outcome, houtcome⟩ s hs
        obtain ⟨accepted, haccepted, hafter⟩ := (hbind outcome).1 houtcome
        obtain ⟨hmem, hmore, -⟩ := hspec accepted haccepted
        by_cases hempty : s = []
        · rw [hempty]
          exact totalOn_nil _
        · exact totalOn_append.2 ⟨hreturns.1 ⟨accepted, haccepted⟩ s hs, fun t ht =>
            hmore.1 ⟨outcome, hafter⟩ t ((hmem t).2 ⟨s, hs, hempty, ht⟩)⟩
      · intro hall
        obtain ⟨accepted, haccepted⟩ := hreturns.2 fun s hs => (totalOn_append.1 (hall s hs)).1
        obtain ⟨hmem, hmore, -⟩ := hspec accepted haccepted
        obtain ⟨outcome, hafter⟩ := hmore.2 fun t ht => by
          obtain ⟨s, hs, -, hwalk⟩ := (hmem t).1 ht
          exact (totalOn_append.1 (hall s hs)).2 t hwalk
        exact ⟨outcome, (hbind outcome).2 ⟨accepted, haccepted, hafter⟩⟩
    · intro outcome houtcome
      obtain ⟨accepted, haccepted, hafter⟩ := (hbind outcome).1 houtcome
      obtain ⟨hmem, -, hmore⟩ := hspec accepted haccepted
      have hresult := hmore outcome hafter
      -- The stacks behind the piece are those on the way.
      have hway : ∀ t, (∃ u, u ∈ accepted.grammarStacks ∧ Walk grammar.rules cs₂ u t) ↔
          ∃ s, Takers grammar s ∧ Walk grammar.rules (cs₁ ++ cs₂) s t := by
        intro t
        simp only [hmem, walk_append, Takers]
        constructor
        · rintro ⟨u, ⟨s, hs, hne, hu⟩, ht⟩
          exact ⟨s, ⟨hs, hne⟩, u, hu, ht⟩
        · rintro ⟨s, ⟨hs, hne⟩, u, hu, ht⟩
          exact ⟨u, ⟨s, hs, hne, hu⟩, ht⟩
      cases outcome with
      | none =>
        intro s hs t hwalk
        obtain ⟨u, hu, ht⟩ := (hway t).2 ⟨s, hs, hwalk⟩
        exact hresult u hu t ht
      | some last =>
        obtain ⟨hrules, hst, hleft, hlastmem⟩ := hresult
        exact ⟨hrules, hst, hleft, fun t => by rw [hlastmem, hway]⟩

/-! ### Any cut -/

/-- Both throw, or both leave the same set of stacks and the same partial character. -/
def SameOutcome : Option LlamaGrammar → Option LlamaGrammar → Prop
  | none, none => True
  | some a, some b => a.rules = b.rules ∧ a.partialUtf8 = b.partialUtf8 ∧
      ∀ t, t ∈ a.grammarStacks ↔ t ∈ b.grammarStacks
  | _, _ => False

/-- Two outcomes of one text agree on their stacks. -/
theorem IsOutcome.same {before : Stack → Prop} {a b : Option LlamaGrammar}
    (ha : IsOutcome rules before cs st a) (hb : IsOutcome rules before cs st b) :
    SameOutcome a b := by
  have hleft : ∀ {accepted : LlamaGrammar}, IsOutcome rules before cs st (some accepted) →
      ¬ IsOutcome rules before cs st none := by
    rintro accepted ⟨-, -, hne, hmem⟩ hnone
    obtain ⟨t, ht⟩ := List.exists_mem_of_ne_nil _ hne
    obtain ⟨s, hs, hwalk⟩ := (hmem t).1 ht
    exact hnone s hs t hwalk
  cases a with
  | none =>
    cases b with
    | none => trivial
    | some b => exact absurd ha (hleft hb)
  | some a =>
    cases b with
    | none => exact absurd hb (hleft ha)
    | some b =>
      exact ⟨ha.1.trans hb.1.symm, ha.2.1.trans hb.2.1.symm, fun t => by
        rw [ha.2.2.2 t, hb.2.2.2 t]⟩

/-- Feeding pieces does what feeding their text as one piece does: the one returns when the other
does, and then both have the same outcome. -/
def FedAsWhole (grammar : LlamaGrammar) (pieces : List (Nat × List UInt8)) (token : Nat)
    (text : List UInt8) : Prop :=
  (Returns (fun n => acceptPieces n grammar pieces) ↔
      Returns (fun n => acceptPieces n grammar (wholePiece token text))) ∧
    ∀ a b, Settles (fun n => acceptPieces n grammar pieces) a →
      Settles (fun n => acceptPieces n grammar (wholePiece token text)) b → SameOutcome a b

theorem sameOutcome_refl (a : Option LlamaGrammar) : SameOutcome a a := by
  cases a with
  | none => trivial
  | some a => exact ⟨rfl, rfl, fun t => Iff.rfl⟩

/-- Pieces that decode whole leave what their text in one piece leaves. -/
theorem fedAsWhole_of_decodes (hchars : OnlyChars grammar.rules)
    (hlast : ∀ p ∈ pieces.getLast?, p.2 ≠ [])
    (hwhole : DecodesWhole grammar.partialUtf8 (pieceText pieces)) (token : Nat) :
    FedAsWhole grammar pieces token (pieceText pieces) := by
  by_cases hne : pieces = []
  · subst hne
    exact ⟨Iff.rfl, fun a b ha hb => by
      rw [show a = b from ha.unique hb]
      exact sameOutcome_refl b⟩
  · obtain ⟨cs, st, hdecodes, hclosed⟩ := hwhole
    have htext : pieceText pieces ≠ [] := by
      intro hnil
      refine rest_ne_nil hne hlast hdecodes hclosed ?_
      rw [hnil] at hdecodes
      exact hdecodes.of_nil.1
    have hpieces := acceptPieces_spec hchars hne hlast hdecodes hclosed
    have hone : wholePiece token (pieceText pieces) = [(token, pieceText pieces)] := if_neg htext
    have hdecodes' : Decodes grammar.partialUtf8 (pieceText [(token, pieceText pieces)]) cs st := by
      simpa [pieceText] using hdecodes
    have htogether := acceptPieces_spec hchars (List.cons_ne_nil (token, pieceText pieces) [])
      (by simpa using htext) hdecodes' hclosed
    rw [FedAsWhole, hone]
    exact ⟨hpieces.1.trans htogether.1.symm, fun a b ha hb =>
      (hpieces.2 a ha).same (htogether.2 b hb)⟩

/-! ### The buffer of a lazy grammar -/

/-- Where the tokens start and end in the buffer. -/
def positionsFrom (vocab : Vocab) : (start : Nat) → List Nat → List BufferedToken
  | _, [] => []
  | start, t :: ts =>
    ⟨t, start, start + (vocab.tokenToPiece t).length⟩ ::
      positionsFrom vocab (start + (vocab.tokenToPiece t).length) ts

/-- The pieces of the tokens one after another. -/
def tokenText (vocab : Vocab) (ts : List Nat) : List UInt8 := ts.flatMap vocab.tokenToPiece

variable {vocab : Vocab}

theorem positionsFrom_append (start : Nat) (ts ts' : List Nat) :
    positionsFrom vocab start (ts ++ ts') = positionsFrom vocab start ts ++
      positionsFrom vocab (start + (tokenText vocab ts).length) ts' := by
  induction ts generalizing start with
  | nil => rfl
  | cons t ts ih =>
    rw [List.cons_append, positionsFrom, positionsFrom, ih, List.cons_append]
    simp [tokenText, Nat.add_assoc]

theorem tokEnd_le {start : Nat} {ts : List Nat} {p : BufferedToken}
    (h : p ∈ positionsFrom vocab start ts) : p.tokEnd ≤ start + (tokenText vocab ts).length := by
  induction ts generalizing start with
  | nil => cases h
  | cons t ts ih =>
    have hlen : (tokenText vocab (t :: ts)).length =
        (vocab.tokenToPiece t).length + (tokenText vocab ts).length := by simp [tokenText]
    rcases List.mem_cons.1 h with rfl | h
    · show start + (vocab.tokenToPiece t).length ≤ _
      omega
    · have := ih h
      omega

/-- The pieces that are fed again are the buffer from the match on. -/
theorem pieceText_replayPieces (before : List UInt8) (ts : List Nat) (s : Nat) :
    pieceText (replayPieces (before ++ tokenText vocab ts)
        (positionsFrom vocab before.length ts) s) =
      (before ++ tokenText vocab ts).drop (max before.length s) := by
  induction ts generalizing before with
  | nil =>
    have hle : (before ++ tokenText vocab []).length ≤ max before.length s := by simp [tokenText]
    rw [List.drop_eq_nil_of_le hle]
    rfl
  | cons t ts ih =>
    have hbuffer : before ++ tokenText vocab (t :: ts) =
        (before ++ vocab.tokenToPiece t) ++ tokenText vocab ts := by simp [tokenText]
    have hrest := ih (before ++ vocab.tokenToPiece t)
    rw [List.length_append] at hrest
    rw [hbuffer]
    generalize (before ++ vocab.tokenToPiece t) ++ tokenText vocab ts = buffer at hrest ⊢
    generalize hend : before.length + (vocab.tokenToPiece t).length = e at hrest
    rw [positionsFrom, hend]
    by_cases hover : e ≤ s
    · -- The token lies before the match.
      have hskip : replayPieces buffer (⟨t, before.length, e⟩ :: positionsFrom vocab e ts) s =
          replayPieces buffer (positionsFrom vocab e ts) s := by
        rw [replayPieces, List.filter_cons_of_neg (by simpa using hover)]
        rfl
      have hmax : max before.length s = max e s := by omega
      rw [hskip, hrest, hmax]
    · have hcut : (if before.length < s then s else before.length) = max before.length s := by
        split <;> omega
      have htake : replayPieces buffer (⟨t, before.length, e⟩ :: positionsFrom vocab e ts) s =
          (t, (buffer.drop (max before.length s)).take (e - max before.length s)) ::
            replayPieces buffer (positionsFrom vocab e ts) s := by
        rw [replayPieces, List.filter_cons_of_pos (by simpa using hover), List.map_cons]
        simp only [hcut]
        rfl
      have hle : max before.length s ≤ e := by omega
      have hmax : max e s = e := by omega
      rw [htake]
      show (buffer.drop _).take _ ++ pieceText _ = _
      rw [hrest, hmax]
      have hdrop : buffer.drop e = (buffer.drop (max before.length s)).drop
          (e - max before.length s) := by
        rw [List.drop_drop]
        congr 1
        omega
      rw [hdrop, List.take_append_drop]

/-- The last piece that is fed again is the end of the last token. -/
theorem replayPieces_last {ts : List Nat} {t s : Nat}
    (hpiece : vocab.tokenToPiece t = [] → ts = []) :
    ∀ p ∈ (replayPieces (tokenText vocab (ts ++ [t])) (positionsFrom vocab 0 (ts ++ [t]))
      s).getLast?, p.2 ≠ [] := by
  have hlen : (tokenText vocab (ts ++ [t])).length =
      (tokenText vocab ts).length + (vocab.tokenToPiece t).length := by simp [tokenText]
  generalize hbuffer : tokenText vocab (ts ++ [t]) = buffer at hlen
  rw [positionsFrom_append, Nat.zero_add]
  by_cases hover : buffer.length ≤ s
  · -- All tokens lie before the match.
    have hnone : replayPieces buffer (positionsFrom vocab 0 ts ++
        positionsFrom vocab (tokenText vocab ts).length [t]) s = [] := by
      rw [replayPieces, List.map_eq_nil_iff, List.filter_eq_nil_iff]
      intro p hp
      rw [decide_eq_true_eq, not_not]
      have hle : p.tokEnd ≤ buffer.length := by
        rcases List.mem_append.1 hp with hp | hp
        · have := tokEnd_le hp
          omega
        · have := tokEnd_le hp
          simp only [tokenText, List.flatMap_cons, List.flatMap_nil, List.append_nil] at this
          simp only [tokenText] at hlen
          omega
      omega
    rw [hnone]
    exact fun p hp => absurd hp (by simp)
  · have hlast : replayPieces buffer (positionsFrom vocab 0 ts ++
        positionsFrom vocab (tokenText vocab ts).length [t]) s =
        replayPieces buffer (positionsFrom vocab 0 ts) s ++
          [(t, (buffer.drop (if (tokenText vocab ts).length < s then s
            else (tokenText vocab ts).length)).take (buffer.length -
              (if (tokenText vocab ts).length < s then s else (tokenText vocab ts).length)))] := by
      rw [replayPieces, List.filter_append, List.map_append, positionsFrom, positionsFrom, ← hlen,
        List.filter_cons_of_pos (by simpa using hover)]
      rfl
    rw [hlast]
    intro p hp
    simp only [List.getLast?_append, List.getLast?_singleton, Option.some_or, Option.mem_def,
      Option.some.injEq] at hp
    subst hp
    -- The token has bytes behind the match.
    have hbytes : 0 < (vocab.tokenToPiece t).length := by
      rw [List.length_pos_iff]
      intro hnil
      rw [hpiece hnil, hnil] at hlen
      simp only [tokenText, List.flatMap_nil, List.length_nil] at hlen
      omega
    apply List.ne_nil_of_length_pos
    rw [List.length_take, List.length_drop]
    split <;> omega

/-- A lazy grammar that has waited since its tokens. -/
structure Waiting (vocab : Vocab) (g₀ g : LazyGrammar) (ts : List Nat) : Prop where
  awaiting : g.awaitingTrigger = true
  grammar : g.grammar = g₀.grammar
  patterns : g.triggerPatterns = g₀.triggerPatterns
  tokens : g.triggerTokens = g₀.triggerTokens
  buffer : g.triggerBuffer = tokenText vocab ts
  positions : g.triggerBufferPositions = positionsFrom vocab 0 ts
  unmatched : ts ≠ [] → firstMatch g.triggerPatterns g.triggerBuffer = none

variable {g₀ g g' : LazyGrammar} {ts : List Nat} {fuel token : Nat}

/-- What is stepped over in the buffer's step: the grammar still waits, or not any more. -/
theorem Waiting.step (h : Waiting vocab g₀ g ts)
    (hstep : acceptImpl fuel vocab g token = some (some g')) (hwaits : g'.awaitingTrigger = true) :
    Waiting vocab g₀ g' (ts ++ [token]) := by
  have hbuffer : g.triggerBuffer ++ vocab.tokenToPiece token = tokenText vocab (ts ++ [token]) := by
    rw [h.buffer]
    simp [tokenText]
  simp only [acceptImpl, h.awaiting, if_true] at hstep
  by_cases htrigger : token ∈ g.triggerTokens
  · rw [if_pos htrigger] at hstep
    obtain ⟨accepted, -, haccepted⟩ := Option.map_eq_some_iff.1 hstep
    obtain ⟨grammar, -, rfl⟩ := Option.map_eq_some_iff.1 haccepted
    cases hwaits
  · rw [if_neg htrigger] at hstep
    cases hmatch : firstMatch g.triggerPatterns (g.triggerBuffer ++ vocab.tokenToPiece token) with
    | none =>
      simp only [hmatch, Option.some.injEq] at hstep
      subst hstep
      refine ⟨rfl, h.grammar, h.patterns, h.tokens, hbuffer, ?_, fun _ => hmatch⟩
      show g.triggerBufferPositions ++ _ = _
      rw [positionsFrom_append, h.positions, h.buffer, Nat.zero_add]
      rfl
    | some start =>
      simp only [hmatch] at hstep
      obtain ⟨accepted, -, haccepted⟩ := Option.map_eq_some_iff.1 hstep
      obtain ⟨grammar, -, rfl⟩ := Option.map_eq_some_iff.1 haccepted
      cases hwaits

/-- A grammar that was triggered does not wait again. -/
theorem not_awaiting_step (h : g.awaitingTrigger = false)
    (hstep : acceptImpl fuel vocab g token = some (some g')) : g'.awaitingTrigger = false := by
  simp only [acceptImpl, h, reduceCtorEq, if_false] at hstep
  split at hstep
  · split at hstep
    · cases hstep; exact h
    · cases hstep
  · obtain ⟨accepted, -, haccepted⟩ := Option.map_eq_some_iff.1 hstep
    obtain ⟨grammar, -, rfl⟩ := Option.map_eq_some_iff.1 haccepted
    rfl

theorem not_awaiting_tokens (h : g.awaitingTrigger = false)
    (hrun : acceptTokens fuel vocab g ts = some (some g')) : g'.awaitingTrigger = false := by
  induction ts generalizing g with
  | nil => cases hrun; exact h
  | cons t ts ih =>
    obtain ⟨accepted, hstep, hrest⟩ := Option.bind_eq_some_iff.1 hrun
    cases accepted with
    | none => cases hrest
    | some next => exact ih (not_awaiting_step h hstep) hrest

/-- More tokens that do not trigger keep the grammar waiting. -/
theorem Waiting.run {ts' : List Nat} (h : Waiting vocab g₀ g ts)
    (hrun : acceptTokens fuel vocab g ts' = some (some g')) (hwaits : g'.awaitingTrigger = true) :
    Waiting vocab g₀ g' (ts ++ ts') := by
  induction ts' generalizing g ts with
  | nil =>
    cases hrun
    rw [List.append_nil]
    exact h
  | cons t ts' ih =>
    obtain ⟨accepted, hstep, hrest⟩ := Option.bind_eq_some_iff.1 hrun
    cases accepted with
    | none => cases hrest
    | some next =>
      have hnext : next.awaitingTrigger = true := by
        by_contra hno
        rw [not_awaiting_tokens (Bool.eq_false_iff.2 hno) hrest] at hwaits
        cases hwaits
      have hall := ih (h.step hstep hnext) hrest
      rw [List.append_assoc] at hall
      exact hall

/-! ### The replay -/

/-- A lazy grammar that has seen no token. -/
structure Fresh (g : LazyGrammar) : Prop where
  awaiting : g.awaitingTrigger = true
  buffer : g.triggerBuffer = []
  positions : g.triggerBufferPositions = []

theorem Fresh.waiting (h : Fresh g) : Waiting vocab g g [] :=
  ⟨h.awaiting, rfl, rfl, rfl, h.buffer, h.positions, fun hne => absurd rfl hne⟩

/-- The grammar that the replay leaves, and the buffers that it clears. -/
def Triggered (g : LazyGrammar) (outcome : Option LlamaGrammar) : Option LazyGrammar :=
  outcome.map fun grammar =>
    { g with
      grammar := grammar
      awaitingTrigger := false
      triggerBuffer := []
      triggerBufferPositions := [] }

/-- The token with which a pattern matches from `s` on leaves what accepting the buffered text from
there on leaves of the grammar as it was at first. -/
def ReplaysFrom (vocab : Vocab) (g₀ g : LazyGrammar) (token : Nat) (text : List UInt8) : Prop :=
  (Returns (fun n => acceptImpl n vocab g token) ↔
      Returns (fun n => acceptPieces n g₀.grammar (wholePiece token text))) ∧
    ∀ a, Settles (fun n => acceptImpl n vocab g token) a → ∃ outcome, a = Triggered g outcome ∧
      ∀ b, Settles (fun n => acceptPieces n g₀.grammar (wholePiece token text)) b →
        SameOutcome outcome b

/-- After a match the grammar is fed the text from the match on. -/
theorem replaysFrom_of_match (hwaiting : Waiting vocab g₀ g ts)
    (hchars : OnlyChars g₀.grammar.rules) (hbits : g₀.grammar.partialUtf8.nRemain ≤ 0)
    (htoken : token ∉ g.triggerTokens) {s : Nat}
    (hmatch : firstMatch g.triggerPatterns (g.triggerBuffer ++ vocab.tokenToPiece token) = some s)
    (hutf8 : IsUtf8 ((g.triggerBuffer ++ vocab.tokenToPiece token).drop s))
    (hzero : ∀ b ∈ (g.triggerBuffer ++ vocab.tokenToPiece token).drop s, b ≠ 0) :
    ReplaysFrom vocab g₀ g token ((g.triggerBuffer ++ vocab.tokenToPiece token).drop s) := by
  have hbuffer : g.triggerBuffer ++ vocab.tokenToPiece token = tokenText vocab (ts ++ [token]) := by
    rw [hwaiting.buffer]
    simp [tokenText]
  have hpositions : g.triggerBufferPositions ++ [⟨token, g.triggerBuffer.length,
      g.triggerBuffer.length + (vocab.tokenToPiece token).length⟩] =
        positionsFrom vocab 0 (ts ++ [token]) := by
    rw [positionsFrom_append, hwaiting.positions, hwaiting.buffer, Nat.zero_add]
    rfl
  -- An empty last piece would have matched before.
  have hpiece : vocab.tokenToPiece token = [] → ts = [] := by
    intro hnil
    by_contra hne
    rw [hnil, List.append_nil, hwaiting.unmatched hne] at hmatch
    cases hmatch
  have himpl : ∀ n, acceptImpl n vocab g token =
      (acceptPieces n g₀.grammar (replayPieces (tokenText vocab (ts ++ [token]))
        (positionsFrom vocab 0 (ts ++ [token])) s)).map (Triggered g) := by
    intro n
    simp only [acceptImpl, hwaiting.awaiting, if_true, if_neg htoken, hmatch, hpositions]
    rw [hwaiting.grammar, hbuffer]
    rfl
  rw [hbuffer] at hutf8 hzero ⊢
  have htext : pieceText (replayPieces (tokenText vocab (ts ++ [token]))
      (positionsFrom vocab 0 (ts ++ [token])) s) = (tokenText vocab (ts ++ [token])).drop s := by
    have := @pieceText_replayPieces vocab [] (ts ++ [token]) s
    simpa using this
  have hfed := fedAsWhole_of_decodes hchars (replayPieces_last (s := s) hpiece)
    (by rw [htext]; exact decodesWhole_of_isUtf8 hutf8 hzero hbits) token
  rw [htext] at hfed
  have hmap := fun a => (mono_acceptPieces g₀.grammar (replayPieces
    (tokenText vocab (ts ++ [token])) (positionsFrom vocab 0 (ts ++ [token])) s)).settles_map_iff
    (f := Triggered g) (b := a)
  simp only [ReplaysFrom, himpl]
  refine ⟨?_, fun a ha => ?_⟩
  · rw [← hfed.1]
    constructor
    · rintro ⟨a, ha⟩
      obtain ⟨outcome, houtcome, -⟩ := (hmap a).1 ha
      exact ⟨outcome, houtcome⟩
    · rintro ⟨outcome, houtcome⟩
      exact ⟨_, houtcome.map _⟩
  · obtain ⟨outcome, houtcome, rfl⟩ := (hmap a).1 ha
    exact ⟨outcome, rfl, fun b hb => hfed.2 outcome b houtcome hb⟩

/-- Where a text in UTF-8 is cut into pieces does not matter: not for pieces that are fed one after
another, and not for the tokens that a lazy grammar has kept back when its trigger matches. -/
theorem cut_irrelevant (vocab : Vocab) :
    (∀ grammar : LlamaGrammar, OnlyChars grammar.rules → grammar.partialUtf8.nRemain ≤ 0 →
      ∀ (pieces : List (Nat × List UInt8)) (token : Nat), (∀ p ∈ pieces, p.2 ≠ []) →
        IsUtf8 (pieceText pieces) → (∀ b ∈ pieceText pieces, b ≠ 0) →
          FedAsWhole grammar pieces token (pieceText pieces)) ∧
    ∀ g₀ g : LazyGrammar, Fresh g₀ → OnlyChars g₀.grammar.rules →
      g₀.grammar.partialUtf8.nRemain ≤ 0 → ∀ (fuel : Nat) (ts : List Nat) (token s : Nat),
        acceptTokens fuel vocab g₀ ts = some (some g) → g.awaitingTrigger = true →
        token ∉ g.triggerTokens →
        firstMatch g.triggerPatterns (tokenText vocab (ts ++ [token])) = some s →
        IsUtf8 ((tokenText vocab (ts ++ [token])).drop s) →
        (∀ b ∈ (tokenText vocab (ts ++ [token])).drop s, b ≠ 0) →
          ReplaysFrom vocab g₀ g token ((tokenText vocab (ts ++ [token])).drop s) := by
  constructor
  · intro grammar hchars hbits pieces token hpieces hutf8 hzero
    refine fedAsWhole_of_decodes hchars (fun p hp => ?_)
      (decodesWhole_of_isUtf8 hutf8 hzero hbits) token
    exact hpieces p (List.mem_of_getLast? hp)
  · intro g₀ g hfresh hchars hbits fuel ts token s hrun hwaits htoken hmatch hutf8 hzero
    have hwaiting : Waiting vocab g₀ g ts := hfresh.waiting.run hrun hwaits
    have hbuffer : tokenText vocab (ts ++ [token]) =
        g.triggerBuffer ++ vocab.tokenToPiece token := by
      rw [hwaiting.buffer]
      simp [tokenText]
    rw [hbuffer] at hmatch hutf8 hzero ⊢
    exact replaysFrom_of_match hwaiting hchars hbits htoken hmatch hutf8 hzero

/-- `root ::= "é"`. -/
def accentGrammar : LlamaGrammar := ⟨[[⟨.char, 0xE9⟩, ⟨.end, 0⟩]], [[⟨0, 0⟩]], {}⟩

/-- The first token ends inside the character. -/
def accentVocab : Vocab := ⟨fun _ => false, fun t => if t = 0 then [0x78, 0xC3] else [0xA9]⟩

/-- Waits for the character at the second byte. -/
def accentLazy : LazyGrammar where
  grammar := accentGrammar
  awaitingTrigger := true
  triggerTokens := []
  triggerPatterns := [fun buffer => if buffer.drop 1 = [0xC3, 0xA9] then some 1 else none]

theorem onlyChars_accentGrammar : OnlyChars accentGrammar.rules := by
  rintro ⟨_ | rule, _ | _ | idx⟩ <;> rfl

theorem isUtf8_accent : IsUtf8 [0xC3, 0xA9] := by
  have hcont : ∀ c ∈ [(0xA9 : UInt8)], isCont c = true := List.forall_mem_singleton.2 rfl
  have hchar : IsChar [0xC3, 0xA9] := ⟨rfl, hcont⟩
  exact .append hchar .nil

/-- "é" in two pieces, and in two tokens behind "x". -/
theorem cut_irrelevant_accent :
    FedAsWhole accentGrammar [(0, [0xC3]), (1, [0xA9])] 0 [0xC3, 0xA9] ∧
      ∃ g, acceptTokens 5 accentVocab accentLazy [0] = some (some g) ∧
        ReplaysFrom accentVocab accentLazy g 1 [0xC3, 0xA9] := by
  have h := cut_irrelevant accentVocab
  have hzero : ∀ b ∈ [(0xC3 : UInt8), 0xA9], b ≠ 0 :=
    List.forall_mem_cons.2 ⟨by decide, List.forall_mem_singleton.2 (by decide)⟩
  have hpieces : ∀ p ∈ [((0 : Nat), [(0xC3 : UInt8)]), (1, [0xA9])], p.2 ≠ [] :=
    List.forall_mem_cons.2 ⟨List.cons_ne_nil _ _,
      List.forall_mem_singleton.2 (List.cons_ne_nil _ _)⟩
  constructor
  · exact h.1 accentGrammar onlyChars_accentGrammar (Int.le_refl 0) _ 0 hpieces isUtf8_accent
      hzero
  · have hfresh : Fresh accentLazy := ⟨rfl, rfl, rfl⟩
    exact ⟨_, rfl, h.2 accentLazy _ hfresh onlyChars_accentGrammar (Int.le_refl 0) 5 [0] 1 1 rfl rfl
      List.not_mem_nil rfl isUtf8_accent hzero⟩

end PxqLlama.Grammar
