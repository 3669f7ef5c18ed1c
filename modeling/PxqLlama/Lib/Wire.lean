import Mathlib.Data.List.Basic
import Mathlib.Tactic.Ring

/-!
# `Lib.Wire`: a byte format read item by item

A reader takes one item after the other from a buffer. An item has a width; its bytes are
accepted, or they end the read: the reader refuses them, throws, or aborts. A buffer that is too
short for the next item ends the read with a throw. Accepted bytes have an effect on a state.

`Accepts` and `Rejects` say of the bytes alone how a read ends, whatever the state: a read is
done when the buffer starts with accepted bytes of all the items, and it refuses when an item that
is all there is refused (`run_refused_iff`).

A number is written with its least byte first (`encode`).
-/

namespace Wire

/-! ### Words -/

/-- The `w` bytes of a number, the least one first. What does not fit is cut off. -/
def encode : Nat → Nat → List UInt8
  | 0, _ => []
  | w + 1, n => UInt8.ofNat n :: encode w (n / 256)

/-- The number that the bytes stand for. -/
def decode : List UInt8 → Nat
  | [] => 0
  | b :: bs => b.toNat + 256 * decode bs

/-- The bytes of a signed number, in two's complement. -/
def encodeInt (w : Nat) (z : Int) : List UInt8 := encode w (z % 256 ^ w).toNat

/-- The signed number that the bytes stand for. -/
def decodeInt (bs : List UInt8) : Int := Int.bmod (decode bs) (256 ^ bs.length)

@[simp] theorem length_encode (w n : Nat) : (encode w n).length = w := by
  induction w generalizing n with
  | zero => rfl
  | succ w ih => rw [encode, List.length_cons, ih]

@[simp] theorem length_encodeInt (w : Nat) (z : Int) : (encodeInt w z).length = w :=
  length_encode w _

theorem decode_encode_mod (w n : Nat) : decode (encode w n) = n % 256 ^ w := by
  induction w generalizing n with
  | zero => rw [encode, decode, Nat.pow_zero, Nat.mod_one]
  | succ w ih =>
    rw [encode, decode, ih, UInt8.toNat_ofNat']
    show n % 256 + 256 * (n / 256 % 256 ^ w) = _
    rw [Nat.pow_succ', Nat.mod_mul]

theorem decode_encode {w n : Nat} (h : n < 256 ^ w) : decode (encode w n) = n := by
  rw [decode_encode_mod, Nat.mod_eq_of_lt h]

theorem decode_eq_zero_iff (bs : List UInt8) : decode bs = 0 ↔ ∀ b ∈ bs, b = 0 := by
  induction bs with
  | nil => simp [decode]
  | cons b bs ih =>
    have hb : b.toNat = 0 ↔ b = 0 := by
      rw [← UInt8.toNat_inj]
      rfl
    rw [decode, Nat.add_eq_zero_iff, hb, List.forall_mem_cons, ← ih]
    simp

theorem decodeInt_encodeInt {w : Nat} {z : Int} (hlo : -(256 ^ w : Nat) ≤ 2 * z)
    (hhi : 2 * z < (256 ^ w : Nat)) : decodeInt (encodeInt w z) = z := by
  have hpos : (0 : Int) < (256 ^ w : Nat) := Int.natCast_pos.mpr (Nat.pow_pos (by decide))
  have hnonneg : 0 ≤ z % (256 ^ w : Nat) := Int.emod_nonneg _ (Int.ne_of_gt hpos)
  have hlt : (z % (256 ^ w : Nat)).toNat < 256 ^ w := by
    have := Int.emod_lt_of_pos z hpos
    omega
  have hcast : (256 ^ w : Int) = ((256 ^ w : Nat) : Int) := by rw [Int.natCast_pow]; rfl
  rw [decodeInt, encodeInt, length_encode, hcast, decode_encode hlt, Int.toNat_of_nonneg hnonneg,
    Int.emod_bmod]
  exact Int.bmod_eq_of_le_mul_two (by omega) (by omega)

/-! ### Items -/

/-- What a reader makes of the bytes of an item. -/
inductive Verdict
  | pass
  | refuse
  | throw
  | abort
  deriving DecidableEq

/-- An item of a format, and what its bytes do to the state. -/
structure Item (σ : Type) where
  width : Nat
  verdict : List UInt8 → Verdict
  effect : List UInt8 → σ → σ

/-- How a read ends: with the rest of the buffer, or before the last item. -/
inductive Outcome (σ : Type)
  | done (rest : List UInt8) (s : σ)
  | refused (s : σ)
  | thrown (s : σ)
  | aborted
  deriving DecidableEq

section
variable {σ : Type}

/-- An item that passes a test, or is refused. -/
def Item.check (w : Nat) (ok : List UInt8 → Bool) : Item σ :=
  ⟨w, fun bs => if ok bs then .pass else .refuse, fun _ s => s⟩

/-- A number that has to be the given one. -/
def Item.expect (w n : Nat) : Item σ := .check w fun bs => decide (decode bs = n)

/-- A signed number that has to be the given one. -/
def Item.expectInt (w : Nat) (z : Int) : Item σ := .check w fun bs => decide (decodeInt bs = z)

/-- The end of a read, before any byte of the next item. -/
def Item.stop (v : Verdict) : Item σ := ⟨0, fun _ => v, fun _ s => s⟩

def Item.read (f : Item σ) (buf : List UInt8) (s : σ) : Outcome σ :=
  if buf.length < f.width then .thrown s
  else
    match f.verdict (buf.take f.width) with
    | .pass => .done (buf.drop f.width) (f.effect (buf.take f.width) s)
    | .refuse => .refused s
    | .throw => .thrown s
    | .abort => .aborted

/-- The items, one after the other. -/
def run : List (Item σ) → List UInt8 → σ → Outcome σ
  | [], buf, s => .done buf s
  | f :: fs, buf, s =>
    match f.read buf s with
    | .done rest s => run fs rest s
    | .refused s => .refused s
    | .thrown s => .thrown s
    | .aborted => .aborted

/-- What the accepted bytes of the items do to the state. -/
def applied : List (Item σ) → List UInt8 → σ → σ
  | [], _, s => s
  | f :: fs, bs, s => applied fs (bs.drop f.width) (f.effect (bs.take f.width) s)

/-- The bytes are those of the items, and each item is accepted. -/
inductive Accepts : List (Item σ) → List UInt8 → Prop
  | nil : Accepts [] []
  | cons {f : Item σ} {fs : List (Item σ)} {bs rest : List UInt8} (hlength : bs.length = f.width)
    (hpass : f.verdict bs = .pass) (hrest : Accepts fs rest) : Accepts (f :: fs) (bs ++ rest)

/-- The buffer has an item that is refused, behind accepted ones. -/
inductive Rejects : List (Item σ) → List UInt8 → Prop
  | here {f : Item σ} {fs : List (Item σ)} {bs rest : List UInt8} (hlength : bs.length = f.width)
    (hrefuse : f.verdict bs = .refuse) : Rejects (f :: fs) (bs ++ rest)
  | later {f : Item σ} {fs : List (Item σ)} {bs rest : List UInt8} (hlength : bs.length = f.width)
    (hpass : f.verdict bs = .pass) (hrest : Rejects fs rest) : Rejects (f :: fs) (bs ++ rest)

/-! ### How a read ends -/

variable {f : Item σ} {fs gs : List (Item σ)} {bs cs buf rest : List UInt8} {s s' : σ}

/-- The next item of a buffer that has all of it. -/
theorem Item.read_append (hlength : bs.length = f.width) :
    f.read (bs ++ rest) s =
      match f.verdict bs with
      | .pass => .done rest (f.effect bs s)
      | .refuse => .refused s
      | .throw => .thrown s
      | .abort => .aborted := by
  rw [Item.read, if_neg (by rw [List.length_append]; omega), ← hlength, List.take_left,
    List.drop_left]

theorem applied_cons (hlength : bs.length = f.width) :
    applied (f :: fs) (bs ++ rest) s = applied fs rest (f.effect bs s) := by
  rw [applied, ← hlength, List.take_left, List.drop_left]

theorem run_of_accepts (h : Accepts fs bs) :
    run fs (bs ++ rest) s = .done rest (applied fs bs s) := by
  induction h generalizing s with
  | nil => rfl
  | cons hlength hpass _ ih =>
    rw [List.append_assoc, run, Item.read_append hlength, hpass, applied_cons hlength]
    exact ih

/-- A run that is done has read what the items accept. -/
theorem accepts_of_run (h : run fs buf s = .done rest s') :
    ∃ bs, buf = bs ++ rest ∧ Accepts fs bs ∧ s' = applied fs bs s := by
  induction fs generalizing buf s with
  | nil =>
    cases h
    exact ⟨[], rfl, .nil, rfl⟩
  | cons f fs ih =>
    rw [run, Item.read] at h
    by_cases hshort : buf.length < f.width
    · rw [if_pos hshort] at h
      cases h
    · rw [if_neg hshort] at h
      cases hv : f.verdict (buf.take f.width) <;> simp only [hv] at h
      case pass =>
        obtain ⟨bs, hbuf, haccepts, hs'⟩ := ih h
        have hlength : (buf.take f.width).length = f.width := by
          rw [List.length_take]
          omega
        refine ⟨buf.take f.width ++ bs, ?_, .cons hlength hv haccepts, ?_⟩
        · rw [List.append_assoc, ← hbuf, List.take_append_drop]
        · rw [hs', applied_cons hlength]
      all_goals cases h

theorem run_of_rejects (h : Rejects fs buf) : ∃ s', run fs buf s = .refused s' := by
  induction h generalizing s with
  | here hlength hrefuse =>
    rw [run, Item.read_append hlength, hrefuse]
    exact ⟨s, rfl⟩
  | later hlength hpass _ ih =>
    rw [run, Item.read_append hlength, hpass]
    exact ih

/-- A run that refuses has met what they reject. -/
theorem rejects_of_run (h : run fs buf s = .refused s') : Rejects fs buf := by
  induction fs generalizing buf s with
  | nil => cases h
  | cons f fs ih =>
    rw [run, Item.read] at h
    by_cases hshort : buf.length < f.width
    · rw [if_pos hshort] at h
      cases h
    · rw [if_neg hshort] at h
      have hlength : (buf.take f.width).length = f.width := by
        rw [List.length_take]
        omega
      rw [← List.take_append_drop f.width buf]
      cases hv : f.verdict (buf.take f.width) <;> simp only [hv] at h
      case pass => exact .later hlength hv (ih h)
      case refuse => exact .here hlength hv
      all_goals cases h

/-- A read refuses the buffer when an item that is all there is refused. -/
theorem run_refused_iff : (∃ s', run fs buf s = .refused s') ↔ Rejects fs buf :=
  ⟨fun ⟨_, h⟩ => rejects_of_run h, run_of_rejects⟩

/-- A read of items that never abort does not abort. -/
theorem run_ne_aborted (h : ∀ f ∈ fs, ∀ bs, f.verdict bs ≠ .abort) : run fs buf s ≠ .aborted := by
  induction fs generalizing buf s with
  | nil => simp [run]
  | cons f fs ih =>
    rw [run, Item.read]
    by_cases hshort : buf.length < f.width
    · simp [if_pos hshort]
    · rw [if_neg hshort]
      cases hv : f.verdict (buf.take f.width) with
      | pass => exact ih fun g hg => h g (List.mem_cons_of_mem _ hg)
      | refuse => simp
      | throw => simp
      | abort => exact absurd hv (h f (List.mem_cons_self ..) _)

/-! ### Formats in parts -/

theorem Accepts.length (h : Accepts fs bs) : bs.length = (fs.map Item.width).sum := by
  induction h with
  | nil => rfl
  | cons hlength _ _ ih => rw [List.length_append, List.map_cons, List.sum_cons, ih, hlength]

end

end Wire
