import Mathlib.Algebra.BigOperators.Group.List.Basic
import PxqLlama.Proofs.Common.RegexText

/-!
# `Proofs.Common.RegexPartial`: what the search for a pattern withholds

The rewritten tree matches the reverse of what `Alts.unfinished` holds (`reverse_lang_reversed`):
beginnings of words, in which a group may be broken off before what follows it. Every beginning of
a word is in there (`covers_alts`), and when groups stand last nothing else is
(`exists_word_of_alts`).

Which match the engine takes is a matter of order. A branch that can be empty matches everywhere,
and the branches behind it are never tried. When only last branches can be empty
(`Alts.choiceOrder`), an unfinished word at the end of the text is found (`search_withholds`).
-/

namespace PxqLlama.Common

open Regex

/-! ### Languages of repetitions -/

variable {L : Language Char} {w : List Char} {α : Type} {Ls : List (Language Char)} {is : List Item}
  {b : Branch} {q : Quant}

section
variable {σ : Type} {accepts : σ → Char → Bool} {r : Regex σ}

/-- A repetition of a language. -/
def repLang : Suffix → Language Char → Language Char
  | .star, L => KStar.kstar L
  | .plus, L => L * KStar.kstar L
  | .opt, L => 1 + L

theorem mem_one_add_pow {n : Nat} : w ∈ (1 + L) ^ n ↔ ∃ k ≤ n, w ∈ L ^ k := by
  induction n generalizing w with
  | zero =>
    constructor
    · exact fun hw => ⟨0, Nat.le_refl 0, hw⟩
    · rintro ⟨k, hk, hw⟩
      obtain rfl : k = 0 := Nat.le_zero.mp hk
      exact hw
  | succ n ih =>
    rw [pow_succ', Language.mem_mul]
    constructor
    · rintro ⟨u, hu, v, hv, rfl⟩
      obtain ⟨k, hk, hv⟩ := ih.mp hv
      rcases hu with hu | hu
      · rw [(Language.mem_one u).mp hu, List.nil_append]
        exact ⟨k, by omega, hv⟩
      · refine ⟨k + 1, by omega, ?_⟩
        rw [pow_succ']
        exact Language.append_mem_mul hu hv
    · rintro ⟨k, hk, hw⟩
      cases k with
      | zero =>
        refine ⟨[], Or.inl rfl, w, ih.mpr ⟨0, Nat.zero_le n, hw⟩, rfl⟩
      | succ k =>
        rw [pow_succ'] at hw
        obtain ⟨u, hu, v, hv, rfl⟩ := Language.mem_mul.mp hw
        exact ⟨u, Or.inr hu, v, ih.mpr ⟨k, by omega, hv⟩, rfl⟩

/-- The counted repetitions are a power and the optional rest. -/
theorem lang_rep (lo : Nat) (extra : Option Nat) :
    lang accepts (rep r lo extra) = lang accepts r ^ lo * lang accepts (rep r 0 extra) := by
  ext w
  rw [Language.mem_mul]
  constructor
  · rintro ⟨k, hk, hw⟩
    rw [pow_add] at hw
    obtain ⟨u, hu, v, hv, rfl⟩ := Language.mem_mul.mp hw
    refine ⟨u, hu, v, ⟨k, hk, ?_⟩, rfl⟩
    rwa [Nat.zero_add]
  · rintro ⟨u, hu, v, ⟨k, hk, hv⟩, rfl⟩
    rw [Nat.zero_add] at hv
    refine ⟨k, hk, ?_⟩
    rw [pow_add]
    exact Language.append_mem_mul hu hv

theorem lang_rep_zero_none : lang accepts (rep r 0 none) = KStar.kstar (lang accepts r) := by
  rw [Language.kstar_eq_iSup_pow]
  ext w
  rw [Language.mem_iSup]
  constructor
  · rintro ⟨k, -, hw⟩
    rw [Nat.zero_add] at hw
    exact ⟨k, hw⟩
  · rintro ⟨k, hw⟩
    have hnone : ∀ n ∈ (none : Option Nat), k ≤ n := by
      rintro n ⟨⟩
    refine ⟨k, hnone, ?_⟩
    rwa [Nat.zero_add]

theorem lang_rep_zero_some (n : Nat) :
    lang accepts (rep r 0 (some n)) = (1 + lang accepts r) ^ n := by
  ext w
  rw [mem_one_add_pow]
  refine exists_congr fun k => ?_
  rw [Nat.zero_add]
  refine and_congr_left fun _ => ?_
  constructor
  · exact fun h => h n rfl
  · rintro h _ ⟨⟩
    exact h

theorem lang_apply_rep (s : Suffix) :
    lang accepts ((Quant.rep s).apply r) = repLang s (lang accepts r) := by
  cases s with
  | star => exact lang_rep_zero_none
  | plus =>
    show lang accepts (rep r 1 none) = _
    rw [lang_rep, lang_rep_zero_none, pow_one]
    rfl
  | opt =>
    show lang accepts (rep r 0 (some 1)) = _
    rw [lang_rep_zero_some, pow_one]
    rfl

/-- A quantified element is its parts, one behind the other. -/
theorem lang_apply (q : Quant) :
    lang accepts (q.apply r) = (q.parts repLang (lang accepts r)).prod := by
  cases q with
  | once => exact (List.prod_singleton).symm
  | rep s => rw [lang_apply_rep, Quant.parts, List.prod_singleton]
  | exactly m =>
    show lang accepts (rep r m.value (some 0)) = _
    rw [lang_rep, lang_rep_zero_some, pow_zero, mul_one, Quant.parts, List.prod_replicate]
  | atLeast m =>
    show lang accepts (rep r m.value none) = _
    rw [lang_rep, lang_rep_zero_none, Quant.parts, List.prod_append, List.prod_replicate,
      List.prod_singleton]
    rfl
  | between m n h =>
    show lang accepts (rep r m.value (some (n.value - m.value))) = _
    rw [lang_rep, lang_rep_zero_some, Quant.parts, List.prod_append, List.prod_replicate,
      List.prod_replicate]
    rfl

theorem reverse_repLang (s : Suffix) (L : Language Char) :
    (repLang s L).reverse = repLang s L.reverse := by
  cases s with
  | star => exact Language.reverse_kstar L
  | plus =>
    show (L * KStar.kstar L).reverse = L.reverse * KStar.kstar L.reverse
    rw [Language.reverse_mul, Language.reverse_kstar, Language.mul_self_kstar_comm]
  | opt =>
    show (1 + L).reverse = 1 + L.reverse
    rw [Language.reverse_add, Language.reverse_one]

end

theorem forall₂_replicate {β : Type} {R : α → β → Prop} {x : α} {y : β} (h : R x y) :
    ∀ n, List.Forall₂ R (List.replicate n x) (List.replicate n y)
  | 0 => .nil
  | n + 1 => .cons h (forall₂_replicate h n)

theorem Quant.forall₂_parts {β : Type} {R : α → β → Prop} {rep : Suffix → α → α}
    {rep' : Suffix → β → β} {e : α} {e' : β} (he : R e e') (hrep : ∀ s, R (rep s e) (rep' s e'))
    (q : Quant) : List.Forall₂ R (q.parts rep e) (q.parts rep' e') := by
  cases q with
  | once => exact .cons he .nil
  | rep s => exact .cons (hrep s) .nil
  | exactly m => exact forall₂_replicate he _
  | atLeast m => exact List.rel_append (forall₂_replicate he _) (.cons (hrep .star) .nil)
  | between m n h =>
    exact List.rel_append (forall₂_replicate he _) (forall₂_replicate (hrep .opt) _)

/-! ### Unfinished words -/

/-- One or more of the languages one behind the other, from the first on. -/
def begun (Ls : List (Language Char)) : Language Char := Ls.foldr (fun L K => L * (1 + K)) 0

theorem mem_begun_cons :
    w ∈ begun (L :: Ls) ↔ ∃ u ∈ L, ∃ v, (v = [] ∨ v ∈ begun Ls) ∧ u ++ v = w := by
  show w ∈ L * (1 + begun Ls) ↔ _
  rw [Language.mem_mul]
  rfl

theorem nil_mem_begun_cons : [] ∈ begun (L :: Ls) ↔ [] ∈ L := by
  rw [mem_begun_cons]
  constructor
  · rintro ⟨u, hu, v, -, heq⟩
    rwa [(List.append_eq_nil_iff.mp heq).1] at hu
  · exact fun h => ⟨[], h, [], Or.inl rfl, rfl⟩

section
variable (accepts : Sym → Char → Bool)

/-- The words of a pattern. -/
abbrev Alts.words (a : Alts) : Language Char := lang accepts a.regex

mutual

/-- The languages of the parts of an element, unfinished words for a group. -/
def Item.unfinished : Item → List (Language Char)
  | .sym s q => q.parts repLang (lang accepts (.sym s))
  | .group _ body q => q.parts repLang body.unfinished

def Branch.unfinished : Branch → List (Language Char)
  | .one i => i.unfinished
  | .cons i b => i.unfinished ++ b.unfinished

/-- The unfinished words of a pattern: beginnings of words, where a group may be unfinished also
when something follows it. -/
def Alts.unfinished : Alts → Language Char
  | .one b => begun b.unfinished
  | .cons b a => begun b.unfinished + a.unfinished

end

variable {accepts}

/-! ### The language of the rewritten tree -/

/-- Nested optional groups read the beginnings of the sequence, reversed. -/
theorem reverse_lang_nestFrom (i : Item) (is : List Item) :
    (lang accepts (nestFrom i is).regex).reverse =
      begun ((i :: is).map fun j => (lang accepts j.regex).reverse) := by
  induction is generalizing i with
  | nil =>
    show (lang accepts i.regex).reverse = (lang accepts i.regex).reverse * (1 + 0)
    rw [add_zero, mul_one]
  | cons j is ih =>
    show (lang accepts ((Quant.rep .opt).apply (nestFrom j is).regex) *
      lang accepts i.regex).reverse = (lang accepts i.regex).reverse *
        (1 + begun ((j :: is).map fun j => (lang accepts j.regex).reverse))
    rw [Language.reverse_mul, lang_apply_rep, reverse_repLang, ih]
    rfl

theorem reverse_lang_nest (h : nest is = some b) :
    (lang accepts b.regex).reverse = begun (is.map fun j => (lang accepts j.regex).reverse) := by
  cases is with
  | nil => cases h
  | cons i is =>
    obtain rfl := Option.some.inj h
    exact reverse_lang_nestFrom i is

variable {r : Regex Sym} {rep : Suffix → α → α}

theorem map_lang_parts {e : Item} (he : e.regex = r)
    (hrep : ∀ s, (e.requant s).regex = (Quant.rep s).apply r) (q : Quant) :
    (q.parts Item.requant e).map (fun j => (lang accepts j.regex).reverse) =
      q.parts repLang (lang accepts r).reverse := by
  have hstep : ∀ s, (lang accepts (e.requant s).regex).reverse =
      repLang s (lang accepts e.regex).reverse := by
    intro s
    rw [hrep, lang_apply_rep, reverse_repLang, he]
  rw [← he]
  exact Quant.map_parts hstep q

theorem reverse_lang_sym (s : Sym) :
    (lang accepts (Regex.sym s)).reverse = lang accepts (Regex.sym s) := by
  ext w
  rw [Language.mem_reverse]
  constructor
  · rintro ⟨c, hw, hc⟩
    refine ⟨c, ?_, hc⟩
    rw [← List.reverse_reverse w, hw]
    rfl
  · rintro ⟨c, rfl, hc⟩
    exact ⟨c, rfl, hc⟩

mutual

theorem map_lang_item : ∀ (i : Item) {is : List Item} (_ : i.parts = some is),
    is.map (fun j => (lang accepts j.regex).reverse) = i.unfinished accepts
  | .sym s q, is, h => by
    rw [Item.parts] at h
    obtain rfl := Option.some.inj h
    rw [map_lang_parts (r := .sym s) rfl (fun t => rfl), reverse_lang_sym]
    rfl
  | .group capture body q, is, h => by
    rw [Item.parts, Option.map_eq_some_iff] at h
    obtain ⟨body', hbody, rfl⟩ := h
    rw [map_lang_parts (r := body'.regex) rfl (fun t => rfl), reverse_lang_reversed body hbody]
    rfl

theorem map_lang_branch : ∀ (b : Branch) {is : List Item} (_ : b.parts = some is),
    is.map (fun j => (lang accepts j.regex).reverse) = b.unfinished accepts
  | .one i, is, h => map_lang_item i h
  | .cons i b, is, h => by
    rw [Branch.parts, Option.bind_eq_some_iff] at h
    obtain ⟨js, hjs, hrest⟩ := h
    obtain ⟨ks, hks, rfl⟩ := Option.map_eq_some_iff.mp hrest
    rw [List.map_append, map_lang_item i hjs, map_lang_branch b hks]
    rfl

/-- The rewritten tree matches the unfinished words, reversed. -/
theorem reverse_lang_reversed : ∀ (a : Alts) {a' : Alts} (_ : a.reversed = some a'),
    (lang accepts a'.regex).reverse = a.unfinished accepts
  | .one b, a', h => by
    obtain ⟨is, b', his, hnest, rfl⟩ := Alts.reversed_one h
    show (lang accepts b'.regex).reverse = _
    rw [reverse_lang_nest hnest, map_lang_branch b his]
    rfl
  | .cons b a, a', h => by
    obtain ⟨is, b', a', his, hnest, ha', rfl⟩ := Alts.reversed_cons h
    show (lang accepts b'.regex + lang accepts a'.regex).reverse = _
    rw [Language.reverse_add, reverse_lang_nest hnest, map_lang_branch b his,
      reverse_lang_reversed a ha']
    rfl

end

/-! ### Beginnings of words are unfinished words -/

/-- The second language holds the beginnings of the words of the first one, and the empty word when
the first one does. -/
def Covers (W U : Language Char) : Prop :=
  ([] ∈ W → [] ∈ U) ∧ ∀ u v, u ≠ [] → u ++ v ∈ W → u ∈ U

theorem Covers.mem {W U : Language Char} (h : Covers W U) (hw : w ∈ W) : w ∈ U := by
  by_cases hne : w = []
  · rw [hne] at hw ⊢
    exact h.1 hw
  · refine h.2 w [] hne ?_
    rwa [List.append_nil]

/-- A beginning of words one behind the other ends in one of them. -/
theorem mem_begun_of_beginning {Ws Us : List (Language Char)} (h : List.Forall₂ Covers Ws Us)
    {u v : List Char} (hne : u ≠ []) (hw : u ++ v ∈ Ws.prod) : u ∈ begun Us := by
  induction h generalizing u v with
  | nil =>
    rw [List.prod_nil, Language.mem_one, List.append_eq_nil_iff] at hw
    exact absurd hw.1 hne
  | cons hWU hrest ih =>
    rw [List.prod_cons, Language.mem_mul] at hw
    obtain ⟨w, hw, x, hx, heq⟩ := hw
    rw [mem_begun_cons]
    rcases List.append_eq_append_iff.mp heq with ⟨c, rfl, rfl⟩ | ⟨c, rfl, rfl⟩
    · -- The beginning goes past the first word.
      by_cases hc : c = []
      · exact ⟨w, hWU.mem hw, [], Or.inl rfl, by rw [hc]⟩
      · exact ⟨w, hWU.mem hw, c, Or.inr (ih hc hx), rfl⟩
    · exact ⟨u, hWU.2 u c hne hw, [], Or.inl rfl, List.append_nil u⟩

theorem Covers.of_forall₂ {Ws Us : List (Language Char)} (h : List.Forall₂ Covers Ws Us)
    (hne : Us ≠ []) : Covers Ws.prod (begun Us) := by
  refine ⟨fun hnil => ?_, fun u v hu hw => mem_begun_of_beginning h hu hw⟩
  cases h with
  | nil => exact absurd rfl hne
  | cons hWU hrest =>
    rw [List.prod_cons, Language.mem_mul] at hnil
    obtain ⟨w, hw, x, -, heq⟩ := hnil
    rw [(List.append_eq_nil_iff.mp heq).1] at hw
    exact nil_mem_begun_cons.mpr (hWU.1 hw)

theorem Covers.add {W U W' U' : Language Char} (h : Covers W U) (h' : Covers W' U') :
    Covers (W + W') (U + U') := by
  constructor
  · rintro (hw | hw)
    · exact Or.inl (h.1 hw)
    · exact Or.inr (h'.1 hw)
  · rintro u v hne (hw | hw)
    · exact Or.inl (h.2 u v hne hw)
    · exact Or.inr (h'.2 u v hne hw)

theorem mem_of_mem_begun_replicate {U : Language Char} {k : Nat} {u : List Char}
    (h : u ∈ begun (List.replicate k U)) : u ∈ U * KStar.kstar U := by
  induction k generalizing u with
  | zero => exact absurd h (Language.notMem_zero u)
  | succ k ih =>
    rw [List.replicate_succ, mem_begun_cons] at h
    obtain ⟨x, hx, y, hy, rfl⟩ := h
    refine Language.append_mem_mul hx ?_
    rw [← Language.one_add_self_mul_kstar_eq_kstar]
    rcases hy with rfl | hy
    · exact Or.inl rfl
    · exact Or.inr (ih hy)

/-- Beginnings of repeated words. -/
theorem Covers.mem_of_beginning_kstar {W U : Language Char} (h : Covers W U) {u v : List Char}
    (hne : u ≠ []) (hw : u ++ v ∈ KStar.kstar W) : u ∈ U * KStar.kstar U := by
  rw [Language.kstar_eq_iSup_pow, Language.mem_iSup] at hw
  obtain ⟨k, hw⟩ := hw
  rw [← List.prod_replicate] at hw
  exact mem_of_mem_begun_replicate (mem_begun_of_beginning (forall₂_replicate h k) hne hw)

/-- A repetition covers what its element covers. -/
theorem Covers.repLang {W U : Language Char} (h : Covers W U) (s : Suffix) :
    Covers (repLang s W) (repLang s U) := by
  cases s with
  | star =>
    refine ⟨fun _ => Language.nil_mem_kstar U, fun u v hne hw => ?_⟩
    rw [Common.repLang, ← Language.one_add_self_mul_kstar_eq_kstar]
    exact Or.inr (h.mem_of_beginning_kstar hne hw)
  | plus =>
    constructor
    · intro hnil
      obtain ⟨x, hx, y, -, heq⟩ := Language.mem_mul.mp hnil
      rw [(List.append_eq_nil_iff.mp heq).1] at hx
      exact ⟨[], h.1 hx, [], Language.nil_mem_kstar U, rfl⟩
    · intro u v hne hw
      have hstar : u ++ v ∈ KStar.kstar W := by
        rw [← Language.one_add_self_mul_kstar_eq_kstar]
        exact Or.inr hw
      exact h.mem_of_beginning_kstar hne hstar
  | opt =>
    refine ⟨fun _ => Or.inl rfl, ?_⟩
    rintro u v hne (hw | hw)
    · exact absurd (List.append_eq_nil_iff.mp ((Language.mem_one _).mp hw)).1 hne
    · exact Or.inr (h.2 u v hne hw)

theorem covers_sym (s : Sym) : Covers (lang accepts (Regex.sym s)) (lang accepts (.sym s)) := by
  refine ⟨id, ?_⟩
  rintro u v hne ⟨c, heq, hc⟩
  rcases List.append_eq_singleton_iff.mp heq with ⟨rfl, -⟩ | ⟨rfl, -⟩
  · exact absurd rfl hne
  · exact ⟨c, rfl, hc⟩

theorem nest_ne_nil {is : List Item} {b : Branch} (h : nest is = some b) : is ≠ [] := by
  rintro rfl
  cases h

theorem unfinished_ne_nil (his : b.parts = some is) (hne : is ≠ []) :
    b.unfinished accepts ≠ [] := by
  rw [← map_lang_branch b his]
  intro hnil
  exact hne (List.map_eq_nil_iff.mp hnil)

variable (accepts) in
/-- The languages of the parts of an element. -/
def Item.wordParts : Item → List (Language Char)
  | .sym s q => q.parts repLang (lang accepts (.sym s))
  | .group _ body q => q.parts repLang (body.words accepts)

variable (accepts) in
def Branch.wordParts : Branch → List (Language Char)
  | .one i => i.wordParts accepts
  | .cons i b => i.wordParts accepts ++ b.wordParts

theorem lang_item (i : Item) : lang accepts i.regex = (i.wordParts accepts).prod := by
  cases i with
  | sym s q => exact lang_apply q
  | group capture body q => exact lang_apply q

theorem lang_branch : ∀ b : Branch, lang accepts b.regex = (b.wordParts accepts).prod
  | .one i => lang_item i
  | .cons i b => by
    show lang accepts i.regex * lang accepts b.regex = _
    rw [lang_item, lang_branch b, Branch.wordParts, List.prod_append]

mutual

theorem covers_item : ∀ (i : Item) {is : List Item} (_ : i.parts = some is),
    List.Forall₂ Covers (i.wordParts accepts) (i.unfinished accepts)
  | .sym s q, _, _ => q.forall₂_parts (covers_sym s) (covers_sym s).repLang
  | .group capture body q, is, h => by
    rw [Item.parts, Option.map_eq_some_iff] at h
    obtain ⟨body', hbody, -⟩ := h
    have hcovers : Covers (body.words accepts) (body.unfinished accepts) := covers_alts body hbody
    exact q.forall₂_parts hcovers hcovers.repLang

theorem covers_branch : ∀ (b : Branch) {is : List Item} (_ : b.parts = some is),
    List.Forall₂ Covers (b.wordParts accepts) (b.unfinished accepts)
  | .one i, _, h => covers_item i h
  | .cons i b, is, h => by
    rw [Branch.parts, Option.bind_eq_some_iff] at h
    obtain ⟨js, hjs, hrest⟩ := h
    obtain ⟨ks, hks, -⟩ := Option.map_eq_some_iff.mp hrest
    exact List.rel_append (covers_item i hjs) (covers_branch b hks)

/-- Every beginning of a word of a pattern is an unfinished word. -/
theorem covers_alts : ∀ (a : Alts) {a' : Alts} (_ : a.reversed = some a'),
    Covers (a.words accepts) (a.unfinished accepts)
  | .one b, a', h => by
    obtain ⟨is, b', his, hnest, -⟩ := Alts.reversed_one h
    have hcovers := Covers.of_forall₂ (covers_branch b his)
      (unfinished_ne_nil his (nest_ne_nil hnest))
    rwa [← lang_branch] at hcovers
  | .cons b a, a', h => by
    obtain ⟨is, b', a', his, hnest, ha', -⟩ := Alts.reversed_cons h
    have hcovers := Covers.of_forall₂ (covers_branch b his)
      (unfinished_ne_nil his (nest_ne_nil hnest))
    rw [← lang_branch] at hcovers
    exact hcovers.add (covers_alts a ha')

end

/-! ### Which branches can be empty -/

/-- Whether a repetition can be empty. -/
def Suffix.skips : Suffix → Bool → Bool
  | star, _ => true
  | plus, e => e
  | opt, _ => true

mutual

/-- For each part of an element, whether it can be empty. -/
def Item.skips : Item → List Bool
  | .sym _ q => q.parts Suffix.skips false
  | .group _ body q => q.parts Suffix.skips body.skips

def Branch.skips : Branch → List Bool
  | .one i => i.skips
  | .cons i b => i.skips ++ b.skips

/-- Whether the rewritten tree can be empty: the first part of some branch can. -/
def Alts.skips : Alts → Bool
  | .one b => b.skips.headD false
  | .cons b a => b.skips.headD false || a.skips

end

mutual

def Item.choiceOrder : Item → Bool
  | .sym _ _ => true
  | .group _ body _ => body.choiceOrder

def Branch.choiceOrder : Branch → Bool
  | .one i => i.choiceOrder
  | .cons i b => i.choiceOrder && b.choiceOrder

/-- In each alternation, no branch but the last has a first part that can be empty. -/
def Alts.choiceOrder : Alts → Bool
  | .one b => b.choiceOrder
  | .cons b a => !b.skips.headD false && (b.choiceOrder && a.choiceOrder)

end

/-- The flag says whether the empty word is in the language. -/
def Skips (L : Language Char) (e : Bool) : Prop := [] ∈ L ↔ e = true

theorem Skips.repLang {e : Bool} (h : Skips L e) (s : Suffix) :
    Skips (repLang s L) (s.skips e) := by
  cases s with
  | star => exact iff_of_true (Language.nil_mem_kstar L) rfl
  | plus =>
    have hL : [] ∈ L ↔ e = true := h
    rw [Skips, Suffix.skips, ← hL]
    constructor
    · intro hnil
      obtain ⟨x, hx, y, -, heq⟩ := Language.mem_mul.mp hnil
      rwa [(List.append_eq_nil_iff.mp heq).1] at hx
    · exact fun hnil => ⟨[], hnil, [], Language.nil_mem_kstar L, rfl⟩
  | opt => exact iff_of_true (Or.inl rfl) rfl

theorem skips_sym (s : Sym) : Skips (lang accepts (Regex.sym s)) false := by
  refine iff_of_false ?_ (by decide)
  rintro ⟨c, heq, -⟩
  cases heq

theorem skips_begun {es : List Bool} (h : List.Forall₂ Skips Ls es) :
    Skips (begun Ls) (es.headD false) := by
  cases h with
  | nil => exact iff_of_false (Language.notMem_zero _) (by decide)
  | cons hfirst hrest =>
    rw [Skips, nil_mem_begun_cons]
    exact hfirst

mutual

theorem skips_item : ∀ i : Item, List.Forall₂ Skips (i.unfinished accepts) i.skips
  | .sym s q => q.forall₂_parts (skips_sym s) (skips_sym s).repLang
  | .group _ body q => q.forall₂_parts (skips_alts body) (skips_alts body).repLang

theorem skips_branch : ∀ b : Branch, List.Forall₂ Skips (b.unfinished accepts) b.skips
  | .one i => skips_item i
  | .cons i b => List.rel_append (skips_item i) (skips_branch b)

theorem skips_alts : ∀ a : Alts, Skips (a.unfinished accepts) a.skips
  | .one b => skips_begun (skips_branch b)
  | .cons b a => by
    have hb : [] ∈ begun (b.unfinished accepts) ↔ b.skips.headD false = true :=
      skips_begun (skips_branch b)
    have ha : [] ∈ a.unfinished accepts ↔ a.skips = true := skips_alts a
    rw [Skips, Alts.skips, Bool.or_eq_true, ← ha, ← hb]
    rfl

end

theorem eagerChoice_apply (h : r.EagerChoice accepts) : (q.apply r).EagerChoice accepts := by
  cases q with
  | rep s => cases s <;> exact h
  | _ => exact h

theorem Quant.eq_of_mem_parts {e x : α} (h : x ∈ q.parts rep e) : x = e ∨ ∃ s, x = rep s e := by
  cases q with
  | once => exact Or.inl (List.mem_singleton.mp h)
  | rep s => exact Or.inr ⟨s, List.mem_singleton.mp h⟩
  | exactly m => exact Or.inl (List.eq_of_mem_replicate h)
  | atLeast m =>
    rcases List.mem_append.mp h with hm | hs
    · exact Or.inl (List.eq_of_mem_replicate hm)
    · exact Or.inr ⟨.star, List.mem_singleton.mp hs⟩
  | between m n hle =>
    rcases List.mem_append.mp h with hm | hs
    · exact Or.inl (List.eq_of_mem_replicate hm)
    · exact Or.inr ⟨.opt, List.eq_of_mem_replicate hs⟩

theorem eagerChoice_parts (h : r.EagerChoice accepts) {e : Item} (he : e.regex = r)
    (hrep : ∀ s, (e.requant s).regex = (Quant.rep s).apply r) {j : Item}
    (hj : j ∈ q.parts Item.requant e) : j.regex.EagerChoice accepts := by
  rcases Quant.eq_of_mem_parts hj with rfl | ⟨s, rfl⟩
  · rw [he]
    exact h
  · rw [hrep]
    exact eagerChoice_apply h

theorem eagerChoice_nestFrom {i : Item} (h : ∀ j ∈ i :: is, j.regex.EagerChoice accepts) :
    (nestFrom i is).regex.EagerChoice accepts := by
  induction is generalizing i with
  | nil => exact h i List.mem_cons_self
  | cons j is ih =>
    have hinner := ih fun k hk => h k (List.mem_cons_of_mem i hk)
    exact ⟨eagerChoice_apply (q := .rep .opt) hinner, h i List.mem_cons_self⟩

theorem eagerChoice_nest (hb : nest is = some b) (h : ∀ j ∈ is, j.regex.EagerChoice accepts) :
    b.regex.EagerChoice accepts := by
  cases is with
  | nil => cases hb
  | cons i is =>
    obtain rfl := Option.some.inj hb
    exact eagerChoice_nestFrom h

mutual

theorem eagerChoice_item : ∀ (i : Item) {is : List Item} (_ : i.parts = some is)
    (_ : i.choiceOrder = true), ∀ j ∈ is, j.regex.EagerChoice accepts
  | .sym s q, is, his, _, j, hj => by
    rw [Item.parts] at his
    obtain rfl := Option.some.inj his
    exact eagerChoice_parts (r := .sym s) trivial rfl (fun t => rfl) hj
  | .group _ body q, is, his, horder, j, hj => by
    rw [Item.parts, Option.map_eq_some_iff] at his
    obtain ⟨body', hbody, rfl⟩ := his
    exact eagerChoice_parts (eagerChoice_alts body hbody horder) rfl (fun t => rfl) hj

theorem eagerChoice_branch : ∀ (b : Branch) {is : List Item} (_ : b.parts = some is)
    (_ : b.choiceOrder = true), ∀ j ∈ is, j.regex.EagerChoice accepts
  | .one i, is, his, horder, j, hj => eagerChoice_item i his horder j hj
  | .cons i b, is, his, horder, j, hj => by
    rw [Branch.parts, Option.bind_eq_some_iff] at his
    obtain ⟨ks, hks, hrest⟩ := his
    obtain ⟨ls, hls, rfl⟩ := Option.map_eq_some_iff.mp hrest
    rw [Branch.choiceOrder, Bool.and_eq_true] at horder
    rcases List.mem_append.mp hj with hmem | hmem
    · exact eagerChoice_item i hks horder.1 j hmem
    · exact eagerChoice_branch b hls horder.2 j hmem

/-- When only last branches can be empty in the pattern, so it is in the rewritten tree. -/
theorem eagerChoice_alts : ∀ (a : Alts) {a' : Alts} (_ : a.reversed = some a')
    (_ : a.choiceOrder = true), a'.regex.EagerChoice accepts
  | .one b, a', ha, horder => by
    obtain ⟨is, b', his, hnest, rfl⟩ := Alts.reversed_one ha
    exact eagerChoice_nest hnest (eagerChoice_branch b his horder)
  | .cons b a, a', ha, horder => by
    obtain ⟨is, b', a', his, hnest, ha', rfl⟩ := Alts.reversed_cons ha
    rw [Alts.choiceOrder, Bool.and_eq_true, Bool.and_eq_true, Bool.not_eq_true'] at horder
    obtain ⟨hskips, hb, ha⟩ := horder
    refine ⟨?_, eagerChoice_nest hnest (eagerChoice_branch b his hb), eagerChoice_alts a ha' ha⟩
    intro hnil
    have hempty : [] ∈ (lang accepts b'.regex).reverse := hnil
    rw [reverse_lang_nest hnest, map_lang_branch b his] at hempty
    have hskips' : b.skips.headD false = true := (skips_begun (skips_branch b)).mp hempty
    rw [hskips] at hskips'
    cases hskips'

end

/-! ### Groups at the end -/

mutual

/-- A group that stands last, and at most once. -/
def Item.standsLast : Item → Bool
  | .sym _ _ => true
  | .group _ body .once => body.groupsLast
  | .group _ body (.rep .opt) => body.groupsLast
  | .group _ _ _ => false

def Branch.groupsLast : Branch → Bool
  | .one i => i.standsLast
  | .cons (.sym _ _) b => b.groupsLast
  | .cons (.group _ _ _) _ => false

/-- Groups are last in their branches, and not repeated. -/
def Alts.groupsLast : Alts → Bool
  | .one b => b.groupsLast
  | .cons b a => b.groupsLast && a.groupsLast

end

theorem repLang_nonempty (h : ∃ w, w ∈ L) (s : Suffix) : ∃ w, w ∈ repLang s L := by
  obtain ⟨w, hw⟩ := h
  cases s with
  | star => exact ⟨[], Language.nil_mem_kstar L⟩
  | plus => exact ⟨w ++ [], Language.append_mem_mul hw (Language.nil_mem_kstar L)⟩
  | opt => exact ⟨[], Or.inl rfl⟩

theorem prod_nonempty (h : ∀ L ∈ Ls, ∃ w, w ∈ L) : ∃ w, w ∈ Ls.prod := by
  induction Ls with
  | nil => exact ⟨[], rfl⟩
  | cons L Ls ih =>
    obtain ⟨u, hu⟩ := h L List.mem_cons_self
    obtain ⟨v, hv⟩ := ih fun K hK => h K (List.mem_cons_of_mem L hK)
    rw [List.prod_cons]
    exact ⟨u ++ v, Language.append_mem_mul hu hv⟩

theorem parts_nonempty (h : ∃ w, w ∈ L) (q : Quant) : ∀ K ∈ q.parts repLang L, ∃ w, w ∈ K := by
  intro K hK
  rcases Quant.eq_of_mem_parts hK with rfl | ⟨s, rfl⟩
  · exact h
  · exact repLang_nonempty h s

/-- Every symbol matches some character. -/
def Satisfiable (accepts : Sym → Char → Bool) : Prop := ∀ s, ∃ c, accepts s c = true

theorem sym_nonempty (hsat : Satisfiable accepts) (s : Sym) :
    ∃ w, w ∈ lang accepts (Regex.sym s) := by
  obtain ⟨c, hc⟩ := hsat s
  exact ⟨[c], c, rfl, hc⟩

mutual

theorem item_nonempty (hsat : Satisfiable accepts) :
    ∀ i : Item, ∀ K ∈ i.wordParts accepts, ∃ w, w ∈ K
  | .sym s q => parts_nonempty (sym_nonempty hsat s) q
  | .group _ body q => parts_nonempty (words_nonempty hsat body) q

theorem branch_nonempty (hsat : Satisfiable accepts) :
    ∀ b : Branch, ∀ K ∈ b.wordParts accepts, ∃ w, w ∈ K
  | .one i => item_nonempty hsat i
  | .cons i b => by
    intro K hK
    rcases List.mem_append.mp hK with hi | hb
    · exact item_nonempty hsat i K hi
    · exact branch_nonempty hsat b K hb

theorem words_nonempty (hsat : Satisfiable accepts) : ∀ a : Alts, ∃ w, w ∈ a.words accepts
  | .one b => by
    obtain ⟨w, hw⟩ := prod_nonempty (branch_nonempty hsat b)
    rw [← lang_branch] at hw
    exact ⟨w, hw⟩
  | .cons b a => by
    obtain ⟨w, hw⟩ := words_nonempty hsat a
    exact ⟨w, Or.inr hw⟩

end

/-- Parts without a group, then something whose unfinished words are beginnings of words. -/
theorem exists_word_of_begun {Ps Us : List (Language Char)} {W : Language Char}
    (hPs : ∀ P ∈ Ps, ∃ w, w ∈ P) (hW : ∃ w, w ∈ W) (hUs : ∀ u ∈ begun Us, ∃ v, u ++ v ∈ W)
    {u : List Char} (hu : u ∈ begun (Ps ++ Us)) : ∃ v, u ++ v ∈ Ps.prod * W := by
  induction Ps generalizing u with
  | nil =>
    obtain ⟨v, hv⟩ := hUs u hu
    refine ⟨v, ?_⟩
    rwa [List.prod_nil, one_mul]
  | cons P Ps ih =>
    have hrest : ∀ Q ∈ Ps, ∃ w, w ∈ Q := fun Q hQ => hPs Q (List.mem_cons_of_mem P hQ)
    rw [List.cons_append, mem_begun_cons] at hu
    obtain ⟨p, hp, x, hx, rfl⟩ := hu
    rw [List.prod_cons, mul_assoc]
    rcases hx with rfl | hx
    · -- Any words do for the parts that have not begun.
      obtain ⟨y, hy⟩ := prod_nonempty hrest
      obtain ⟨z, hz⟩ := hW
      refine ⟨y ++ z, ?_⟩
      rw [List.append_nil]
      exact Language.append_mem_mul hp (Language.append_mem_mul hy hz)
    · obtain ⟨v, hv⟩ := ih hrest hx
      refine ⟨v, ?_⟩
      rw [List.append_assoc]
      exact Language.append_mem_mul hp hv

mutual

/-- What is begun of a branch whose groups come last can be completed. -/
theorem exists_word_of_branch (hsat : Satisfiable accepts) :
    ∀ (b : Branch) (_ : b.groupsLast = true),
    ∀ u ∈ begun (b.unfinished accepts), ∃ v, u ++ v ∈ lang accepts b.regex
  | .one (.sym s q), _, u, hu => by
    have hparts : u ∈ begun ((Item.sym s q).wordParts accepts ++ []) := by
      rw [List.append_nil]
      exact hu
    obtain ⟨v, hv⟩ := exists_word_of_begun (item_nonempty hsat (.sym s q)) ⟨[], rfl⟩
      (W := 1) (fun w (hw : w ∈ begun []) => absurd hw (Language.notMem_zero w)) hparts
    rw [mul_one, ← lang_item] at hv
    exact ⟨v, hv⟩
  | .one (.group capture body .once), hlast, u, hu => by
    obtain ⟨x, hx, y, hy, rfl⟩ := mem_begun_cons.mp hu
    rcases hy with rfl | hy
    · rw [List.append_nil]
      exact exists_word_of_alts hsat body hlast x hx
    · exact absurd hy (Language.notMem_zero y)
  | .one (.group capture body (.rep .opt)), hlast, u, hu => by
    have hlang : lang accepts (Branch.one (.group capture body (.rep .opt))).regex =
        1 + body.words accepts := lang_apply_rep .opt
    obtain ⟨x, hx, y, hy, rfl⟩ := mem_begun_cons.mp hu
    rw [hlang]
    rcases hy with rfl | hy
    · rw [List.append_nil]
      rcases hx with hx | hx
      · rw [(Language.mem_one x).mp hx]
        exact ⟨[], Or.inl rfl⟩
      · obtain ⟨v, hv⟩ := exists_word_of_alts hsat body hlast x hx
        exact ⟨v, Or.inr hv⟩
    · exact absurd hy (Language.notMem_zero y)
  | .cons (.sym s q) b, hlast, u, hu => by
    obtain ⟨v, hv⟩ := exists_word_of_begun (item_nonempty hsat (.sym s q))
      (by rw [lang_branch]; exact prod_nonempty (branch_nonempty hsat b))
      (exists_word_of_branch hsat b hlast) hu
    rw [← lang_item] at hv
    exact ⟨v, hv⟩

/-- When groups stand last, an unfinished word is the beginning of a word. -/
theorem exists_word_of_alts (hsat : Satisfiable accepts) : ∀ (a : Alts) (_ : a.groupsLast = true),
    ∀ u ∈ a.unfinished accepts, ∃ v, u ++ v ∈ a.words accepts
  | .one b, hlast, u, hu => exists_word_of_branch hsat b hlast u hu
  | .cons b a, hlast, u, hu => by
    rw [Alts.groupsLast, Bool.and_eq_true] at hlast
    rcases hu with hu | hu
    · obtain ⟨v, hv⟩ := exists_word_of_branch hsat b hlast.1 u hu
      exact ⟨v, Or.inl hv⟩
    · obtain ⟨v, hv⟩ := exists_word_of_alts hsat a hlast.2 u hu
      exact ⟨v, Or.inr hv⟩

end

/-! ### Patterns that are rewritten -/

/-- Whether an element with the quantifier has parts: it is not repeated zero times. -/
def Quant.hasParts : Quant → Bool
  | exactly m => m.value != 0
  | between _ n _ => n.value != 0
  | _ => true

def Item.hasParts : Item → Bool
  | .sym _ q => q.hasParts
  | .group _ _ q => q.hasParts

def Branch.hasParts : Branch → Bool
  | .one i => i.hasParts
  | .cons i b => i.hasParts || b.hasParts

mutual

def Item.lasting : Item → Bool
  | .sym _ _ => true
  | .group _ body _ => body.lasting

def Branch.lasting : Branch → Bool
  | .one i => i.lasting
  | .cons i b => i.lasting && b.lasting

/-- No branch has only elements that are repeated zero times. -/
def Alts.lasting : Alts → Bool
  | .one b => b.hasParts && b.lasting
  | .cons b a => (b.hasParts && b.lasting) && a.lasting

end

theorem Quant.parts_ne_nil {e : α} (h : q.hasParts = true) : q.parts rep e ≠ [] := by
  cases q with
  | once => exact List.cons_ne_nil _ _
  | rep s => exact List.cons_ne_nil _ _
  | exactly m =>
    rw [hasParts, bne_iff_ne] at h
    intro hnil
    have hlen := congrArg List.length hnil
    rw [parts, List.length_replicate] at hlen
    exact h hlen
  | atLeast m => exact List.append_ne_nil_of_right_ne_nil _ (List.cons_ne_nil _ _)
  | between m n hle =>
    rw [hasParts, bne_iff_ne] at h
    intro hnil
    have hlen := congrArg List.length hnil
    rw [parts, List.length_append, List.length_replicate, List.length_replicate,
      List.length_nil] at hlen
    omega

mutual

theorem exists_item_parts : ∀ (i : Item) (_ : i.lasting = true),
    ∃ is, i.parts = some is ∧ (i.hasParts = true → is ≠ [])
  | .sym s q, _ => ⟨_, rfl, Quant.parts_ne_nil⟩
  | .group _ body q, h => by
    obtain ⟨body', hbody⟩ := exists_reversed body h
    refine ⟨q.parts Item.requant (.group false body' .once), ?_, Quant.parts_ne_nil⟩
    rw [Item.parts, hbody]
    rfl

/-- A branch whose parts all last has them. -/
theorem exists_branch_parts : ∀ (b : Branch) (_ : b.lasting = true),
    ∃ is, b.parts = some is ∧ (b.hasParts = true → is ≠ [])
  | .one i, h => exists_item_parts i h
  | .cons i b, h => by
    rw [Branch.lasting, Bool.and_eq_true] at h
    obtain ⟨js, hjs, hj⟩ := exists_item_parts i h.1
    obtain ⟨ks, hks, hk⟩ := exists_branch_parts b h.2
    refine ⟨js ++ ks, ?_, fun hparts => ?_⟩
    · rw [Branch.parts, hjs, hks]
      rfl
    · rcases (Bool.or_eq_true _ _).mp hparts with hi | hb
      · exact List.append_ne_nil_of_left_ne_nil (hj hi) ks
      · exact List.append_ne_nil_of_right_ne_nil js (hk hb)

/-- Such a pattern is rewritten. -/
theorem exists_reversed : ∀ (a : Alts) (_ : a.lasting = true), ∃ a', a.reversed = some a'
  | .one b, h => by
    rw [Alts.lasting, Bool.and_eq_true] at h
    obtain ⟨is, his, hne⟩ := exists_branch_parts b h.2
    obtain ⟨i, is, rfl⟩ := List.exists_cons_of_ne_nil (hne h.1)
    refine ⟨.one (nestFrom i is), ?_⟩
    rw [Alts.reversed, his]
    rfl
  | .cons b a, h => by
    rw [Alts.lasting, Bool.and_eq_true, Bool.and_eq_true] at h
    obtain ⟨is, his, hne⟩ := exists_branch_parts b h.1.2
    obtain ⟨i, is, rfl⟩ := List.exists_cons_of_ne_nil (hne h.1.1)
    obtain ⟨a', ha'⟩ := exists_reversed a h.2
    refine ⟨.cons (nestFrom i is) a', ?_⟩
    rw [Alts.reversed, his, ha']
    rfl

end

/-! ### The search -/

/-- The pattern is found nowhere exactly when no word is in the text. -/
theorem regexSearch_eq_none_iff (r : Regex Sym) (pos : Nat) (t : List Char) :
    regexSearch accepts r pos t = none ↔ ∀ w ∈ lang accepts r, ¬ w <:+: t := by
  have hhead : ∀ t : List Char, (r.run accepts t).head? = none ↔
      ∀ w ∈ lang accepts r, ¬ w <+: t := by
    intro t
    rw [List.head?_eq_none_iff, List.eq_nil_iff_forall_not_mem]
    constructor
    · rintro hnone w hw ⟨t', ht'⟩
      exact hnone t' ((mem_run_iff r t t').mpr ⟨w, hw, ht'.symm⟩)
    · intro hnone t' ht'
      obtain ⟨w, hw, heq⟩ := (mem_run_iff r t t').mp ht'
      exact hnone w hw ⟨t', heq.symm⟩
  induction t generalizing pos with
  | nil =>
    rw [regexSearch, Option.map_eq_none_iff, hhead]
    refine forall₂_congr fun w _ => not_congr ?_
    rw [List.prefix_nil, List.infix_nil]
  | cons c t ih =>
    have hcons : ∀ w : List Char, w <:+: c :: t ↔ w <+: c :: t ∨ w <:+: t :=
      fun w => List.infix_cons_iff
    rw [regexSearch]
    cases hrun : (r.run accepts (c :: t)).head? with
    | none =>
      rw [hhead] at hrun
      refine (ih (pos + 1)).trans ?_
      refine forall₂_congr fun w hw => not_congr ?_
      rw [hcons]
      exact ⟨Or.inr, fun h => h.resolve_left (hrun w hw)⟩
    | some t' =>
      refine iff_of_false (by simp) fun hall => ?_
      have hnone : (r.run accepts (c :: t)).head? = none :=
        (hhead _).mpr fun w hw hpre => hall w hw ((hcons w).mpr (Or.inl hpre))
      rw [hrun] at hnone
      cases hnone

variable (accepts) in
/-- The search for a pattern in a text that holds no word of it. -/
structure Withholds (a : Alts) (c : CommonRegex) (s : List Char) : Prop where
  /-- When the text ends in an unfinished word, the match begins with one. -/
  found : ∀ w, w ≠ [] → w <:+ s → w ∈ a.unfinished accepts →
    ∃ start < s.length, c.search accepts s 0 false = .ok (.partialMatch start s.length) ∧
      s.drop start ∈ a.unfinished accepts
  notFound : (∀ w, w ≠ [] → w <:+ s → w ∉ a.unfinished accepts) →
    c.search accepts s 0 false = .ok .noMatch
  /-- Beginnings of words are unfinished words. -/
  begins : ∀ u v, u ≠ [] → u ++ v ∈ a.words accepts → u ∈ a.unfinished accepts
  /-- With groups only at the end there are no others. -/
  only : a.groupsLast = true → Satisfiable accepts →
    ∀ u ∈ a.unfinished accepts, ∃ v, u ++ v ∈ a.words accepts

/-- The search when neither expression matches. -/
theorem search_of_head?_none {c : CommonRegex} {s : List Char}
    (hno : ∀ w ∈ lang accepts c.rx.regex, ¬ w <:+: s)
    (hhead : (c.rxReversedPartial.regex.run accepts s.reverse).head? = none) :
    c.search accepts s 0 false = .ok .noMatch := by
  have hnone := (regexSearch_eq_none_iff c.rx.regex 0 s).mpr hno
  rw [CommonRegex.search, if_neg (Nat.not_lt_zero _)]
  simp only [List.drop_zero, Bool.false_eq_true, if_false, hnone, hhead]

/-- The search when only the reversed text matches. -/
theorem search_of_head?_some {c : CommonRegex} {s left : List Char}
    (hno : ∀ w ∈ lang accepts c.rx.regex, ¬ w <:+: s)
    (hhead : (c.rxReversedPartial.regex.run accepts s.reverse).head? = some left) :
    c.search accepts s 0 false =
      if s.length - left.length ≠ 0 then
        .ok (.partialMatch (s.length - (s.length - left.length)) s.length)
      else .ok .noMatch := by
  have hnone := (regexSearch_eq_none_iff c.rx.regex 0 s).mpr hno
  rw [CommonRegex.search, if_neg (Nat.not_lt_zero _)]
  simp only [List.drop_zero, Bool.false_eq_true, if_false, hnone, hhead, true_or, and_true]

/-- **What the search withholds.** For every pattern in which no branch vanishes and only last
branches can be empty, and every text that holds no word of it: the search reports a match that
begins with an unfinished word when the text ends in one, and no match otherwise. Beginnings of
words are unfinished words, and with groups only at the end there are no others. -/
theorem search_withholds {a : Alts} (hlasting : a.lasting = true)
    (horder : a.choiceOrder = true) :
    (∃ c : CommonRegex, c.pattern = a.text) ∧ ∀ c : CommonRegex, c.pattern = a.text →
      ∀ s, (∀ w ∈ a.words accepts, ¬ w <:+: s) → Withholds accepts a c s := by
  obtain ⟨a', ha'⟩ := exists_reversed a hlasting
  have hlang : ∀ w, w ∈ lang accepts a'.regex ↔ w.reverse ∈ a.unfinished accepts := by
    intro w
    rw [← reverse_lang_reversed a ha', Language.mem_reverse, List.reverse_reverse]
  refine ⟨⟨.of a a' ha', rfl⟩, fun c hc s hno => ?_⟩
  obtain ⟨hrx, rfl⟩ := CommonRegex.eq_of_pattern ha' hc
  rw [← hrx] at hno
  refine ⟨?_, ?_, (covers_alts a ha').2, fun hlast hsat => exists_word_of_alts hsat a hlast⟩
  · rintro w hne ⟨t, rfl⟩ hw
    have hmem : w.reverse ∈ lang accepts c.rxReversedPartial.regex := by
      rw [hlang, List.reverse_reverse]
      exact hw
    -- The reversed text begins with a word of the rewritten tree, so the engine finds one.
    obtain ⟨x, left, hx, hxmem, heq, hhead⟩ := exists_head_run
      (eagerChoice_alts a ha' horder) (t := t.reverse) hmem (by simpa using hne)
    rw [← List.reverse_append] at heq hhead
    have hlen : (t ++ w).length = x.length + left.length := by
      rw [← List.length_reverse, heq, List.length_append]
    have hpos : 0 < x.length := List.length_pos_of_ne_nil hx
    refine ⟨left.length, by omega, ?_, ?_⟩
    · have hstart : (t ++ w).length - ((t ++ w).length - left.length) = left.length := by omega
      rw [search_of_head?_some hno hhead, if_pos (by omega), hstart]
    · have htext : t ++ w = left.reverse ++ x.reverse := by
        rw [← List.reverse_append, ← heq, List.reverse_reverse]
      rw [htext, ← List.length_reverse, List.drop_left, ← hlang]
      exact hxmem
  · intro hnone
    cases hhead : (c.rxReversedPartial.regex.run accepts s.reverse).head? with
    | none => exact search_of_head?_none hno hhead
    | some left =>
      obtain ⟨x, hx, heq⟩ :=
        (mem_run_iff c.rxReversedPartial.regex _ _).mp (List.mem_of_mem_head? hhead)
      have hsuffix : x.reverse <:+ s := by
        refine ⟨left.reverse, ?_⟩
        rw [← List.reverse_append, ← heq, List.reverse_reverse]
      -- Only the empty word can be there.
      have hnil : x.reverse = [] := by
        by_contra hne
        exact hnone x.reverse hne hsuffix ((hlang x).mp hx)
      have hleft : left = s.reverse := by
        rw [heq, List.reverse_eq_nil_iff.mp hnil]
        rfl
      rw [search_of_head?_some hno hhead, hleft, List.length_reverse, Nat.sub_self]
      rfl

end

/-! ### Two patterns -/

/-- The meaning of symbols that are characters. -/
def literal : Sym → Char → Bool
  | .plain c _, d => c == d
  | .escape c _, d => c == d
  | .cls _, _ => false

/-- A character as an element. -/
def char (c : Char) (h : isPlain c = true) (q : Quant) : Item := .sym (.plain c h) q

/-- `a(bc|de)`. -/
def groupAtEnd : Alts :=
  .one (.cons (char 'a' (by decide) .once) (.one (.group true
    (.cons (.cons (char 'b' (by decide) .once) (.one (char 'c' (by decide) .once)))
      (.one (.cons (char 'd' (by decide) .once) (.one (char 'e' (by decide) .once))))) .once)))

/-- The end of `xab` is withheld for `a(bc|de)`. -/
theorem search_withholds_ab : ∃ c : CommonRegex,
    c.pattern = ['a', '(', 'b', 'c', '|', 'd', 'e', ')'] ∧ ∃ start < 3,
      c.search literal ['x', 'a', 'b'] 0 false = .ok (.partialMatch start 3) := by
  have hno : ∀ w ∈ groupAtEnd.words literal, ¬ w <:+: ['x', 'a', 'b'] :=
    (regexSearch_eq_none_iff groupAtEnd.regex 0 _).mp (by decide)
  obtain ⟨⟨c, hc⟩, hall⟩ := search_withholds (a := groupAtEnd) (by decide) (by decide)
  have h := hall c hc ['x', 'a', 'b'] hno
  have hword : ['a', 'b'] ++ ['c'] ∈ groupAtEnd.words literal :=
    ⟨['a'], ⟨'a', rfl, rfl⟩, ['b', 'c'],
      Or.inl ⟨['b'], ⟨'b', rfl, rfl⟩, ['c'], ⟨'c', rfl, rfl⟩, rfl⟩, rfl⟩
  obtain ⟨start, hlt, hsearch, -⟩ := h.found ['a', 'b'] (by decide) (by decide)
    (h.begins _ _ (by decide) hword)
  exact ⟨c, hc, start, hlt, hsearch⟩

/-- `a*b|cd`. -/
def hidingBranch : Alts :=
  .cons (.cons (char 'a' (by decide) (.rep .star)) (.one (char 'b' (by decide) .once)))
    (.one (.cons (char 'c' (by decide) .once) (.one (char 'd' (by decide) .once))))

-- The first branch can be empty and hides the second one: `c` is not withheld.
example : hidingBranch.choiceOrder = false ∧
    (CommonRegex.of hidingBranch (hidingBranch.reversed.get (by decide))
      (Option.some_get _).symm).search literal ['c'] 0 false = .ok .noMatch := by
  decide

/-- `a(bc)d`. -/
def groupInside : Alts :=
  .one (.cons (char 'a' (by decide) .once) (.cons (.group true (.one
    (.cons (char 'b' (by decide) .once) (.one (char 'c' (by decide) .once)))) .once)
      (.one (char 'd' (by decide) .once))))

theorem eq_of_mem_words_groupInside (h : w ∈ groupInside.words literal) :
    w = ['a', 'b', 'c', 'd'] := by
  obtain ⟨_, ⟨a, rfl, ha⟩, _, ⟨_, ⟨_, ⟨b, rfl, hb⟩, _, ⟨c, rfl, hc⟩, rfl⟩, _, ⟨d, rfl, hd⟩, rfl⟩,
    rfl⟩ := h
  rw [← eq_of_beq ha, ← eq_of_beq hb, ← eq_of_beq hc, ← eq_of_beq hd]
  rfl

/-- `a(bc)d` is reported at the end of `abd`, which ends in no beginning of a word of it. -/
theorem search_reports_no_beginning : ∃ c : CommonRegex,
    c.pattern = ['a', '(', 'b', 'c', ')', 'd'] ∧ c.rx = groupInside ∧
      (∀ w ∈ c.rx.words literal, ¬ w <:+: ['a', 'b', 'd']) ∧
        (∀ u, u ≠ [] → u <:+ ['a', 'b', 'd'] → ∀ v, u ++ v ∉ c.rx.words literal) ∧
          c.search literal ['a', 'b', 'd'] 0 false = .ok (.partialMatch 0 3) := by
  refine ⟨.of groupInside (groupInside.reversed.get (by decide)) (Option.some_get _).symm, by decide,
    rfl, ?_, ?_, by decide⟩
  · exact (regexSearch_eq_none_iff groupInside.regex 0 _).mp (by decide)
  · intro u hne hsuffix v hmem
    have hprefix : u <+: ['a', 'b', 'c', 'd'] := ⟨v, eq_of_mem_words_groupInside hmem⟩
    have htails : ∀ t ∈ ['a', 'b', 'd'].tails, t ≠ [] → ¬ t <+: ['a', 'b', 'c', 'd'] := by decide
    exact htails u ((List.mem_tails _ _).mpr hsuffix) hne hprefix

end PxqLlama.Common
