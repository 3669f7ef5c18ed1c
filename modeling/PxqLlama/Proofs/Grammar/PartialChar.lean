import PxqLlama.Proofs.Grammar.Replay

/-!
# `Proofs.Grammar.PartialChar`: what a part of a character can become

When a text ends inside a character, `decode_utf8` leaves the bits of the character so far and how
many bytes are still to come. `part_prefix_iff` says what that leaves open: the characters that go
on from this part are those whose code points are between the two bounds of `partialBounds`. The
bound below takes care of forms with more bytes than they need.

Surrogates and code points above `0x10FFFF` are no characters, but the bounds do not leave them
out, and `matchPartialChar` only looks for a range of the element that meets the bounds.
`matchPartialChar_iff` says which elements this is enough for. For a negated class it seldom is: one
range that takes away some of the characters is taken for one that takes away all.
-/

namespace PxqLlama.Grammar

/-! ### The bytes of a character -/

/-- How many bytes follow the first byte of a character. -/
def followOf (v : Nat) : Nat :=
  if v ≤ 0x7F then 0 else if v ≤ 0x7FF then 1 else if v ≤ 0xFFFF then 2 else 3

/-- The first byte of a character with `n` bytes behind it. -/
def leadByte (v n : Nat) : UInt8 := UInt8.ofNat (v / 64 ^ n + [0, 0xC0, 0xE0, 0xF0].getD n 0)

/-- The bytes behind the first one, six bits each. -/
def contBytes (v : Nat) : Nat → List UInt8
  | 0 => []
  | n + 1 => UInt8.ofNat (v / 64 ^ n % 64 + 0x80) :: contBytes v n

theorem length_contBytes (v n : Nat) : (contBytes v n).length = n := by
  induction n with
  | zero => rfl
  | succ n ih => rw [contBytes, List.length_cons, ih]

theorem toNat_le (c : Char) : c.toNat ≤ 0x10FFFF := by
  have h : c.toNat < 0xD800 ∨ (0xDFFF < c.toNat ∧ c.toNat < 0x110000) := c.valid
  omega

/-- A character is its lead byte and the continuation bytes behind it. -/
theorem utf8EncodeChar_eq (c : Char) :
    String.utf8EncodeChar c =
      leadByte c.toNat (followOf c.toNat) :: contBytes c.toNat (followOf c.toNat) := by
  have hmax := toNat_le c
  have hv : c.val.toNat = c.toNat := rfl
  unfold String.utf8EncodeChar followOf
  rw [hv]
  split_ifs with h1 h2 h3
  · simp [leadByte, contBytes, h1]
  · have hq : c.toNat / 64 % 32 = c.toNat / 64 := by omega
    simp [leadByte, contBytes, hq, h1, h2]
  · have hq : c.toNat / 4096 % 16 = c.toNat / 4096 := by omega
    simp [leadByte, contBytes, hq, h1, h2, h3]
  · have hq : c.toNat / 262144 % 8 = c.toNat / 262144 := by omega
    simp [leadByte, contBytes, hq, h1, h2, h3]

/-- What `decode_utf8` reads off the first byte of a character. -/
theorem leadByte_spec {v : Nat} (hv : v ≤ 0x10FFFF) :
    followBytes (leadByte v (followOf v)) = followOf v ∧
      (leadByte v (followOf v)).toNat % 2 ^ (7 - followOf v) = v / 64 ^ followOf v := by
  have h0 : ∀ q < 128, followBytes (UInt8.ofNat (q + 0)) = (0 : Nat) ∧
      (UInt8.ofNat (q + 0)).toNat % 2 ^ (7 - 0) = q := by decide +kernel
  have h1 : ∀ q < 32, followBytes (UInt8.ofNat (q + 0xC0)) = (1 : Nat) ∧
      (UInt8.ofNat (q + 0xC0)).toNat % 2 ^ (7 - 1) = q := by decide +kernel
  have h2 : ∀ q < 16, followBytes (UInt8.ofNat (q + 0xE0)) = (2 : Nat) ∧
      (UInt8.ofNat (q + 0xE0)).toNat % 2 ^ (7 - 2) = q := by decide +kernel
  have h3 : ∀ q < 8, followBytes (UInt8.ofNat (q + 0xF0)) = (3 : Nat) ∧
      (UInt8.ofNat (q + 0xF0)).toNat % 2 ^ (7 - 3) = q := by decide +kernel
  unfold leadByte followOf
  split_ifs
  · exact h0 _ (by omega)
  · exact h1 _ (by omega)
  · exact h2 _ (by omega)
  · exact h3 _ (by omega)

/-- A continuation byte moves the next six bits in. -/
theorem addByte_cont (v n : Nat) :
    (UInt8.ofNat (v / 64 ^ n % 64 + 0x80)).toNat / 64 = 2 ∧
      addByte (v / 64 ^ (n + 1)) (UInt8.ofNat (v / 64 ^ n % 64 + 0x80)) = v / 64 ^ n := by
  have hlt : v / 64 ^ n % 64 < 64 := Nat.mod_lt _ (by decide)
  have hbyte : (UInt8.ofNat (v / 64 ^ n % 64 + 0x80)).toNat = v / 64 ^ n % 64 + 0x80 := by
    rw [UInt8.toNat_ofNat']
    omega
  have hquot : v / 64 ^ (n + 1) = v / 64 ^ n / 64 := by
    rw [Nat.pow_succ, Nat.div_div_eq_div_mul]
  unfold addByte
  rw [hbyte, hquot]
  omega

/-- The bytes decode with no error, and this is what is left at their end. -/
def Leaves (start : PartialUtf8) (bs : List UInt8) (st : PartialUtf8) : Prop :=
  ∃ cs, Decodes start bs cs st

theorem Leaves.append {start mid st : PartialUtf8} {xs ys : List UInt8} (h₁ : Leaves start xs mid)
    (h₂ : Leaves mid ys st) : Leaves start (xs ++ ys) st := by
  obtain ⟨cs₁, h₁⟩ := h₁
  obtain ⟨cs₂, h₂⟩ := h₂
  exact ⟨cs₁ ++ cs₂, h₁.append h₂⟩

variable {start : PartialUtf8} {k : Nat}

theorem Leaves.decodeUtf8_eq {st : PartialUtf8} {bs : List UInt8} (h : Leaves start bs st) :
    (decodeUtf8 bs start).2 = st := by
  obtain ⟨cs, h⟩ := h
  rw [decodeUtf8_of_decodes h]

/-- The first `k` of the continuation bytes. -/
theorem leaves_conts (v : Nat) {n : Nat} (hk : k ≤ n) :
    Leaves ⟨v / 64 ^ n, n⟩ ((contBytes v n).take k) ⟨v / 64 ^ (n - k), (n - k : Nat)⟩ := by
  induction n generalizing k with
  | zero =>
    obtain rfl : k = 0 := by omega
    exact ⟨[], .nil⟩
  | succ n ih =>
    cases k with
    | zero => exact ⟨[], .nil⟩
    | succ k =>
      obtain ⟨hcont, hadd⟩ := addByte_cont v n
      obtain ⟨cs, hrest⟩ := ih (Nat.le_of_succ_le_succ hk)
      have hless : ((n + 1 : Nat) : Int) - 1 = n := by omega
      rw [← hadd, ← hless] at hrest
      rw [contBytes, List.take_succ_cons, Nat.add_sub_add_right]
      exact ⟨_, .cont (by omega) hcont hrest⟩

variable {c : Char} {pieces : List (List UInt8)}

/-- Part of a character, from its first byte on, leaves the upper bits of the code point. -/
theorem leaves_part (hc : c ≠ '\x00') (hk : k ≤ followOf c.toNat) (hstart : start.nRemain ≤ 0) :
    Leaves start ((String.utf8EncodeChar c).take (k + 1))
      ⟨c.toNat / 64 ^ (followOf c.toNat - k), (followOf c.toNat - k : Nat)⟩ := by
  obtain ⟨hfollow, hbits⟩ := leadByte_spec (toNat_le c)
  obtain ⟨cs, hconts⟩ := leaves_conts c.toNat hk
  have hshift : (7 - (followOf c.toNat : Int)).toNat = 7 - followOf c.toNat := by omega
  rw [← hbits, ← hshift, ← hfollow] at hconts
  rw [utf8EncodeChar_eq, List.take_succ_cons]
  refine ⟨_, .lead hstart ?_ (by omega) hconts⟩
  -- a zero byte has no byte behind it and no bits
  intro hzero
  have hnone : followBytes 0 = 0 := by decide
  rw [hzero, hnone] at hfollow
  have hn : followOf c.toNat = 0 := by omega
  rw [hzero, hn, Nat.pow_zero, Nat.div_one] at hbits
  exact hc (Char.toNat_inj.mp hbits.symm)

theorem leaves_char (hc : c ≠ '\x00') (hstart : start.nRemain ≤ 0) :
    Leaves start (String.utf8EncodeChar c) ⟨c.toNat, 0⟩ := by
  have hwhole := leaves_part hc (Nat.le_refl (followOf c.toNat)) hstart
  rw [List.take_of_length_le (by rw [utf8EncodeChar_eq, List.length_cons, length_contBytes])]
    at hwhole
  simpa using hwhole

/-- Whole characters leave no character open. -/
theorem leaves_chars {cs : List Char} (hzero : '\x00' ∉ cs) (hstart : start.nRemain ≤ 0) :
    ∃ st, Leaves start (cs.flatMap String.utf8EncodeChar) st ∧ st.nRemain ≤ 0 := by
  induction cs generalizing start with
  | nil => exact ⟨start, ⟨[], .nil⟩, hstart⟩
  | cons c cs ih =>
    have hc : c ≠ '\x00' := fun h => hzero (h ▸ List.mem_cons_self)
    have hchar := leaves_char hc hstart
    have hafter : (PartialUtf8.mk c.toNat 0).nRemain ≤ 0 := Int.le_refl 0
    obtain ⟨st, hst, hclosed⟩ := ih (fun h => hzero (List.mem_cons_of_mem c h)) hafter
    exact ⟨st, hchar.append hst, hclosed⟩

/-- `decode_utf8` on the pieces of a text one after another, each from what the one before left. -/
def decodePieces (start : PartialUtf8) (pieces : List (List UInt8)) : PartialUtf8 :=
  pieces.foldl (fun st piece => (decodeUtf8 piece st).2) start

theorem Leaves.decodePieces_eq {st : PartialUtf8} (h : Leaves start pieces.flatten st) :
    decodePieces start pieces = st := by
  induction pieces generalizing start with
  | nil =>
    obtain ⟨cs, h⟩ := h
    exact h.of_nil.2
  | cons piece pieces ih =>
    obtain ⟨cs, h⟩ := h
    obtain ⟨mid, cs₁, cs₂, -, h₁, h₂⟩ := Decodes.of_append h
    have hmid : (decodeUtf8 piece start).2 = mid := Leaves.decodeUtf8_eq ⟨cs₁, h₁⟩
    rw [decodePieces, List.foldl_cons, hmid]
    exact ih ⟨cs₂, h₂⟩

/-! ### What goes on from a part -/

/-- Part of a character: it has a first byte, and bytes are missing. -/
structure PartOf (part : List UInt8) (c : Char) : Prop where
  isPrefix : part <+: String.utf8EncodeChar c
  ne_nil : part ≠ []
  length_lt : part.length < (String.utf8EncodeChar c).length

theorem PartOf.exists_take {part : List UInt8} (h : PartOf part c) :
    ∃ k, k < followOf c.toNat ∧ part = (String.utf8EncodeChar c).take (k + 1) := by
  have hpos := List.length_pos_iff.mpr h.ne_nil
  have hlen := h.length_lt
  rw [utf8EncodeChar_eq, List.length_cons, length_contBytes] at hlen
  refine ⟨part.length - 1, by omega, ?_⟩
  rw [Nat.sub_add_cancel hpos]
  exact List.prefix_iff_eq_take.mp h.isPrefix

/-- Lower bits of a number are upper bits of its upper bits. -/
theorem div_pow_of_div_pow {v w m n : Nat} (hm : m ≤ n) (h : v / 64 ^ m = w / 64 ^ m) :
    v / 64 ^ n = w / 64 ^ n := by
  have hsplit : 64 ^ n = 64 ^ m * 64 ^ (n - m) := by rw [← Nat.pow_add, Nat.add_sub_cancel' hm]
  rw [hsplit, ← Nat.div_div_eq_div_mul, h, Nat.div_div_eq_div_mul]

/-- The first continuation bytes are those of the bits that they hold. -/
theorem take_contBytes {v w n : Nat} (hk : k ≤ n) (h : v / 64 ^ (n - k) = w / 64 ^ (n - k)) :
    (contBytes v n).take k = (contBytes w n).take k := by
  induction n generalizing k with
  | zero => rfl
  | succ n ih =>
    cases k with
    | zero => rfl
    | succ k =>
      rw [Nat.add_sub_add_right] at h
      have hhead := div_pow_of_div_pow (Nat.sub_le n k) h
      rw [contBytes, contBytes, List.take_succ_cons, List.take_succ_cons, hhead,
        ih (Nat.le_of_succ_le_succ hk) h]

/-- The characters that go on from a part are the ones with as many bytes and the same upper
bits. -/
theorem take_prefix_iff {d : Char} (hk : k < followOf c.toNat) :
    (String.utf8EncodeChar c).take (k + 1) <+: String.utf8EncodeChar d ↔
      followOf d.toNat = followOf c.toNat ∧
        d.toNat / 64 ^ (followOf c.toNat - k) = c.toNat / 64 ^ (followOf c.toNat - k) := by
  have hne : ∀ e : Char, followOf e.toNat = followOf c.toNat → e ≠ '\x00' := by
    rintro e he rfl
    have hnone : followOf '\x00'.toNat = 0 := by decide
    omega
  constructor
  · intro h
    have hfollow : followOf d.toNat = followOf c.toNat := by
      have hhead := h
      rw [utf8EncodeChar_eq, utf8EncodeChar_eq, List.take_succ_cons, List.cons_prefix_cons] at hhead
      have hc := (leadByte_spec (toNat_le c)).1
      have hd := (leadByte_spec (toNat_le d)).1
      rw [← hhead.1, hc] at hd
      omega
    refine ⟨hfollow, ?_⟩
    -- both characters leave the same state at the end of the part
    have hlen : ((String.utf8EncodeChar c).take (k + 1)).length = k + 1 := by
      rw [utf8EncodeChar_eq, List.length_take, List.length_cons, length_contBytes]
      omega
    have htake := List.prefix_iff_eq_take.mp h
    rw [hlen] at htake
    have hleaves := leaves_part (hne d hfollow) (by omega : k ≤ followOf d.toNat)
      (Int.le_refl (PartialUtf8.nRemain {}))
    rw [← htake] at hleaves
    have hsame := (leaves_part (hne c rfl) (Nat.le_of_lt hk)
      (Int.le_refl (PartialUtf8.nRemain {}))).decodeUtf8_eq.symm.trans hleaves.decodeUtf8_eq
    rw [hfollow] at hsame
    exact (congrArg PartialUtf8.value hsame).symm
  · rintro ⟨hfollow, hbits⟩
    have hlead : leadByte d.toNat (followOf c.toNat) = leadByte c.toNat (followOf c.toNat) := by
      rw [leadByte, leadByte, div_pow_of_div_pow (Nat.sub_le _ k) hbits]
    rw [utf8EncodeChar_eq c, utf8EncodeChar_eq d, hfollow, hlead, List.take_succ_cons,
      List.cons_prefix_cons, ← take_contBytes (Nat.le_of_lt hk) hbits]
    exact ⟨rfl, List.take_prefix k _⟩

/-- The code points of the characters with so many bytes. -/
theorem followOf_spec (v : Nat) :
    followOf v = 0 ∧ v ≤ 0x7F ∨ followOf v = 1 ∧ 0x80 ≤ v ∧ v ≤ 0x7FF ∨
      followOf v = 2 ∧ 0x800 ≤ v ∧ v ≤ 0xFFFF ∨ followOf v = 3 ∧ 0x10000 ≤ v := by
  unfold followOf
  split_ifs <;> omega

/-- The state at the end of a part holds the bits of every character that goes on from it, and the
bounds are those of the characters with as many bytes. -/
theorem bounds_iff {d : Char} (hk : k < followOf c.toNat) :
    (followOf d.toNat = followOf c.toNat ∧
        d.toNat / 64 ^ (followOf c.toNat - k) = c.toNat / 64 ^ (followOf c.toNat - k)) ↔
      (partialBounds ⟨c.toNat / 64 ^ (followOf c.toNat - k), (followOf c.toNat - k : Nat)⟩).1 ≤
          d.toNat ∧
        d.toNat ≤
          (partialBounds ⟨c.toNat / 64 ^ (followOf c.toNat - k), (followOf c.toNat - k : Nat)⟩).2 := by
  have hc := followOf_spec c.toNat
  have hd := followOf_spec d.toNat
  have hcmax := toNat_le c
  have hdmax := toNat_le d
  generalize followOf c.toNat = n at *
  generalize followOf d.toNat = m at *
  have hcases : (n = 1 ∧ k = 0) ∨ (n = 2 ∧ k = 0) ∨ (n = 2 ∧ k = 1) ∨ (n = 3 ∧ k = 0) ∨
      (n = 3 ∧ k = 1) ∨ (n = 3 ∧ k = 2) := by omega
  unfold partialBounds minCode
  rcases hcases with ⟨rfl, rfl⟩ | ⟨rfl, rfl⟩ | ⟨rfl, rfl⟩ | ⟨rfl, rfl⟩ | ⟨rfl, rfl⟩ | ⟨rfl, rfl⟩ <;>
    simp <;> split_ifs <;> omega

/-- What is left at the end of pieces that end inside a character. -/
theorem exists_partial {before : List Char} (hzero : '\x00' ∉ before) {part : List UInt8}
    (hpart : PartOf part c)
    (hpieces : pieces.flatten = before.flatMap String.utf8EncodeChar ++ part) :
    ∃ k, k < followOf c.toNat ∧ part = (String.utf8EncodeChar c).take (k + 1) ∧
      decodePieces {} pieces =
        ⟨c.toNat / 64 ^ (followOf c.toNat - k), (followOf c.toNat - k : Nat)⟩ := by
  obtain ⟨k, hk, htake⟩ := hpart.exists_take
  have hc : c ≠ '\x00' := by
    rintro rfl
    exact absurd hk (Nat.not_lt_zero k)
  obtain ⟨st, hbefore, hclosed⟩ := leaves_chars hzero (Int.le_refl (PartialUtf8.nRemain {}))
  have hleaves := hbefore.append (htake ▸ leaves_part hc (Nat.le_of_lt hk) hclosed)
  exact ⟨k, hk, htake, Leaves.decodePieces_eq (hpieces ▸ hleaves)⟩

/-! ### The ranges of an element -/

/-- The range holds a character from `low` to `high`: not only surrogates, and not only numbers
above the last code point. -/
def CharRange.reaches (low high : Nat) : CharRange → Bool
  | .any => true
  | .range first last =>
    let first := max first low
    let last := min last (min high 0x10FFFF)
    first ≤ last && !(0xD800 ≤ first && last ≤ 0xDFFF)

theorem exists_char {first last : Nat} (hle : first ≤ last) (hlast : last ≤ 0x10FFFF)
    (hsurrogate : ¬ (0xD800 ≤ first ∧ last ≤ 0xDFFF)) :
    ∃ d : Char, first ≤ d.toNat ∧ d.toNat ≤ last := by
  have hof : ∀ n : Nat, n.isValidChar → ∃ d : Char, d.toNat = n :=
    fun n hn => ⟨Char.ofNatAux n hn, rfl⟩
  by_cases hbelow : 0xD800 ≤ first ∧ first ≤ 0xDFFF
  · obtain ⟨d, hd⟩ := hof 0xE000 (Or.inr ⟨by decide, by decide⟩)
    exact ⟨d, by omega, by omega⟩
  · have hvalid : first.isValidChar := by
      unfold Nat.isValidChar
      omega
    obtain ⟨d, hd⟩ := hof first hvalid
    exact ⟨d, by omega, by omega⟩

theorem CharRange.reaches_iff {low high : Nat} (hlow : low ≤ c.toNat) (hhigh : c.toNat ≤ high)
    (range : CharRange) :
    range.reaches low high = true ↔
      ∃ d : Char, low ≤ d.toNat ∧ d.toNat ≤ high ∧ range.holds d.toNat = true := by
  cases range with
  | any => exact ⟨fun _ => ⟨c, hlow, hhigh, rfl⟩, fun _ => rfl⟩
  | range first last =>
    simp only [reaches, holds, Bool.and_eq_true, Bool.not_eq_true', Bool.and_eq_false_iff,
      decide_eq_true_eq, decide_eq_false_iff_not]
    constructor
    · rintro ⟨hle, hsurrogate⟩
      obtain ⟨d, hfirst, hlast⟩ := exists_char hle (by omega) (by omega)
      exact ⟨d, by omega, by omega, by omega, by omega⟩
    · rintro ⟨d, hd⟩
      have hvalid : d.toNat < 0xD800 ∨ (0xDFFF < d.toNat ∧ d.toNat < 0x110000) := d.valid
      omega

/-- A range that holds a code point between the bounds meets them. -/
theorem CharRange.meets_of_holds {low high v : Nat} (hlow : low ≤ v) (hhigh : v ≤ high)
    {range : CharRange} (h : range.holds v = true) : range.meets low high = true := by
  cases range with
  | any => rfl
  | range first last =>
    simp only [holds, meets, Bool.and_eq_true, decide_eq_true_eq] at h ⊢
    omega

/-- A character that the ranges hold is between the bounds only where a range meets them. -/
theorem any_meets {ranges : List CharRange} {low high : Nat} {d : Char} (hlow : low ≤ d.toNat)
    (hhigh : d.toNat ≤ high) (h : ranges.any (CharRange.holds d.toNat) = true) :
    ranges.any (CharRange.meets low high) = true := by
  obtain ⟨range, hrange, hd⟩ := List.any_eq_true.mp h
  exact List.any_eq_true.mpr ⟨range, hrange, CharRange.meets_of_holds hlow hhigh hd⟩

section

variable {ranges : List CharRange} {low high : Nat} {c : Char}

/-- Where the bounds are enough for a positive element. -/
theorem positive_iff (hlow : low ≤ c.toNat) (hhigh : c.toNat ≤ high) :
    (ranges.any (CharRange.meets low high) = true ↔
        ∃ d : Char, (low ≤ d.toNat ∧ d.toNat ≤ high) ∧
          ranges.any (CharRange.holds d.toNat) = true) ↔
      (ranges.any (CharRange.meets low high) = true →
        ranges.any (CharRange.reaches low high) = true) := by
  have hspec : ranges.any (CharRange.reaches low high) = true ↔
      ∃ d : Char, (low ≤ d.toNat ∧ d.toNat ≤ high) ∧
        ranges.any (CharRange.holds d.toNat) = true := by
    simp only [List.any_eq_true, CharRange.reaches_iff hlow hhigh]
    constructor
    · rintro ⟨range, hrange, d, hdlow, hdhigh, hd⟩
      exact ⟨d, ⟨hdlow, hdhigh⟩, range, hrange, hd⟩
    · rintro ⟨d, ⟨hdlow, hdhigh⟩, range, hrange, hd⟩
      exact ⟨range, hrange, d, hdlow, hdhigh, hd⟩
  rw [hspec]
  refine ⟨Iff.mp, fun h => ⟨h, ?_⟩⟩
  rintro ⟨d, ⟨hdlow, hdhigh⟩, hd⟩
  exact any_meets hdlow hdhigh hd

/-- Where the bounds are enough for a negated element. -/
theorem negated_iff (hlow : low ≤ c.toNat) (hhigh : c.toNat ≤ high) :
    (ranges.any (CharRange.meets low high) = false ↔
        ∃ d : Char, (low ≤ d.toNat ∧ d.toNat ≤ high) ∧
          ranges.any (CharRange.holds d.toNat) = false) ↔
      (ranges.any (CharRange.meets low high) = true →
        ∀ d : Char, low ≤ d.toNat → d.toNat ≤ high →
          ranges.any (CharRange.holds d.toNat) = true) := by
  constructor
  · -- what is rejected has no completion that matches
    intro h hmeets d hdlow hdhigh
    by_contra hd
    rw [Bool.not_eq_true] at hd
    rw [h.mpr ⟨d, ⟨hdlow, hdhigh⟩, hd⟩] at hmeets
    exact Bool.false_ne_true hmeets
  · intro h
    constructor
    · -- no range takes away the character itself
      intro hmeets
      refine ⟨c, ⟨hlow, hhigh⟩, ?_⟩
      by_contra hc
      rw [Bool.not_eq_false] at hc
      rw [any_meets hlow hhigh hc] at hmeets
      exact Bool.false_ne_true hmeets.symm
    · rintro ⟨d, ⟨hdlow, hdhigh⟩, hd⟩
      by_contra hmeets
      rw [Bool.not_eq_false] at hmeets
      rw [h hmeets d hdlow hdhigh] at hd
      exact Bool.false_ne_true hd.symm

end

/-! ### `llama_grammar_match_partial_char` -/

/-- A character that goes on from the part matches. -/
def CompletionMatches (rules : Rules) (p : Pos) (part : List UInt8) : Prop :=
  ∃ d : Char, part <+: String.utf8EncodeChar d ∧ (matchChar rules p d.toNat).1 = true

/-- Where it is enough to look for a range that meets the bounds. When there is one, some range of
a positive element also holds a character between the bounds, and the ranges of a negated one hold
all of these characters. -/
def BoundsSuffice (rules : Rules) (p : Pos) (partialUtf8 : PartialUtf8) : Prop :=
  let bounds := partialBounds partialUtf8
  let ranges := (charRanges rules p).1
  ranges.any (CharRange.meets bounds.1 bounds.2) = true →
    if isPositiveChar (elementAt rules p) = true then
      ranges.any (CharRange.reaches bounds.1 bounds.2) = true
    else
      ∀ d : Char, bounds.1 ≤ d.toNat → d.toNat ≤ bounds.2 →
        ranges.any (CharRange.holds d.toNat) = true

/-- For any text that is cut off inside a character, decoded in any pieces:
`llama_grammar_match_partial_char` finds out whether a character that goes on from there matches,
exactly where the bounds are enough. -/
theorem matchPartialChar_iff (rules : Rules) (p : Pos) {before : List Char}
    (hzero : '\x00' ∉ before) {c : Char} {part : List UInt8} (hpart : PartOf part c)
    {pieces : List (List UInt8)}
    (hpieces : pieces.flatten = before.flatMap String.utf8EncodeChar ++ part) :
    (matchPartialChar rules p (decodePieces {} pieces) = true ↔
        CompletionMatches rules p part) ↔
      BoundsSuffice rules p (decodePieces {} pieces) := by
  obtain ⟨k, hk, htake, hst⟩ := exists_partial hzero hpart hpieces
  have hgoes : ∀ d : Char, part <+: String.utf8EncodeChar d ↔
      (partialBounds (decodePieces {} pieces)).1 ≤ d.toNat ∧
        d.toNat ≤ (partialBounds (decodePieces {} pieces)).2 := by
    intro d
    rw [htake, take_prefix_iff hk, hst, bounds_iff hk]
  have hself := (hgoes c).mp hpart.isPrefix
  -- a part of two bytes is not written with more bytes than it needs
  have hproper : ¬ ((decodePieces {} pieces).nRemain < 0 ∨
      ((decodePieces {} pieces).nRemain = 1 ∧ (decodePieces {} pieces).value < 2)) := by
    have hsize := followOf_spec c.toNat
    rw [hst]
    rintro (hneg | ⟨hone, hvalue⟩)
    · exact absurd hneg (by simp)
    · have hr : followOf c.toNat - k = 1 := Int.ofNat.inj hone
      simp only [hr, Nat.pow_one] at hvalue
      omega
  simp only [matchPartialChar, if_neg hproper, CompletionMatches, BoundsSuffice, matchChar, hgoes,
    beq_iff_eq]
  cases isPositiveChar (elementAt rules p) with
  | true => exact positive_iff hself.1 hself.2
  | false => exact negated_iff hself.1 hself.2

/-! ### A negated class -/

/-- `[^é]`. -/
def notAccentRules : Rules := [[⟨.charNot, 0xE9⟩, ⟨.end, 0⟩]]

/-- `[à-ÿ]`. -/
def accentRules : Rules := [[⟨.char, 0xE0⟩, ⟨.charRngUpper, 0xFF⟩, ⟨.end, 0⟩]]

/-- The first byte of `é`. -/
theorem partOf_accent : PartOf [0xC3] 'é' := ⟨⟨[0xA9], by decide⟩, by decide, by decide⟩

/-- Some of the characters that begin with this byte are in the class. -/
theorem matchPartialChar_accent :
    matchPartialChar accentRules ⟨0, 0⟩ (decodePieces {} [[0xC3]]) = true ↔
      CompletionMatches accentRules ⟨0, 0⟩ [0xC3] := by
  refine (matchPartialChar_iff accentRules ⟨0, 0⟩ List.not_mem_nil partOf_accent rfl).mpr ?_
  intro _
  rw [if_pos (by decide)]
  decide

/-- The first byte of `é` may go on to `à`, which is not excluded, but it is rejected. -/
theorem matchPartialChar_notAccent :
    PartOf [0xC3] 'é' ∧
      ¬ (matchPartialChar notAccentRules ⟨0, 0⟩ (decodePieces {} [[0xC3]]) = true ↔
        CompletionMatches notAccentRules ⟨0, 0⟩ [0xC3]) := by
  refine ⟨partOf_accent, fun h => ?_⟩
  have hmatches : CompletionMatches notAccentRules ⟨0, 0⟩ [0xC3] :=
    ⟨'à', ⟨[0xA0], by decide⟩, by decide⟩
  exact absurd (h.mpr hmatches) (by decide)

end PxqLlama.Grammar
