import PxqLlama.Pxq.Tiers
import PxqLlama.Lib.Stores
import Mathlib.Tactic.Ring

/-!
# `Proofs.Pxq.SlabLayout`: places of a panel and their bytes

A byte of a panel is half of an anchor, a scale byte or a code byte (`Loc`). `Loc.addr`
is its offset by the expressions of the scatter step. `SlabTier.locate` goes back from
the offset by division. They are inverse to each other on the panel (`locate_addr`,
`addr_locate`), for every tier, so the bytes of one row are hit by no other row and no
byte of the panel is left out.

The stores of an expert are then all cut from one function of the address, and a read
returns the byte of the place read (`run_scatterExpert_apply`).
-/

namespace PxqLlama.Pxq

/-- A byte of a panel: the low or high half of the anchor of row `r`, scale byte `i` of
row `r` in slab `kb`, or byte `b` of the code row of row `r` in slab `kb`. -/
inductive Loc
  | anchor (r : Nat) (hi : Bool)
  | scale (kb r i : Nat)
  | code (kb r b : Nat)
  deriving DecidableEq

namespace Loc

/-- The row that the byte belongs to. -/
def row : Loc → Nat
  | anchor r _ => r
  | scale _ r _ => r
  | code _ r _ => r

/-- The place exists in a panel of `KB` slabs. -/
def WF (T : SlabTier) (KB : Nat) : Loc → Prop
  | anchor r _ => r < 64
  | scale kb r i => kb < KB ∧ r < 64 ∧ i < T.scPerRow
  | code kb r b => kb < KB ∧ r < 64 ∧ b < T.codeBytes

/-- The offset of the byte in its panel. -/
def addr (T : SlabTier) : Loc → Nat
  | anchor r hi => 2 * r + hi.toNat
  | scale kb r i => T.hdrBytes + kb * T.slabBytes + (T.scPerRow * r + i)
  | code kb r b => T.hdrBytes + kb * T.slabBytes + (T.codeOff + r * T.codeBytes + b)

/-- The value that the scatter step gives the byte, from the codes of its row. -/
def byte (T : SlabTier) (c : RowCodes T.bookSize) : Loc → UInt8
  | anchor _ false => UInt8.ofNat c.anchor.toNat
  | anchor _ true => UInt8.ofNat (c.anchor.toNat >>> 8)
  | scale kb _ i =>
    UInt8.ofNat (T.packScales (fun i => (c.s4 (kb * (32 / T.bs) + i)).val) i)
  | code kb _ b => UInt8.ofNat (T.packCodes (fun j => (c.codes (kb * 32 + j)).val) b)

variable {KB : Nat}

theorem WF.row_lt {T : SlabTier} {l : Loc} (h : l.WF T KB) : l.row < 64 := by
  cases l with
  | anchor r hi => exact h
  | scale kb r i => exact h.2.1
  | code kb r b => exact h.2.1

end Loc

namespace SlabTier

variable (T : SlabTier)

/-- The place at an offset of a panel. -/
def locate (x : Nat) : Loc :=
  if x < T.hdrBytes then .anchor (x / 2) (x % 2 == 1)
  else
    let kb := (x - T.hdrBytes) / T.slabBytes
    let z := (x - T.hdrBytes) % T.slabBytes
    if z < T.codeOff then .scale kb (z / T.scPerRow) (z % T.scPerRow)
    else .code kb ((z - T.codeOff) / T.codeBytes) ((z - T.codeOff) % T.codeBytes)

theorem slabBytes_pos : 0 < T.slabBytes := by
  have h := T.slab_eq
  have hc := T.codeBytes_pos
  omega

theorem panelBytes_pos (KB : Nat) : 0 < T.panelBytes KB := by
  have h := T.hdr_eq
  rw [panelBytes]
  omega

/-- A pair `(a, b)` with `b < n` and `a < m` is below `m * n` when laid out row by row. -/
theorem mul_add_lt {a b m n : Nat} (ha : a < m) (hb : b < n) : a * n + b < m * n := by
  calc a * n + b < a * n + n := by omega
    _ = (a + 1) * n := by ring
    _ ≤ m * n := Nat.mul_le_mul_right n ha

theorem scale_lt_codeOff {r i : Nat} (hr : r < 64) (hi : i < T.scPerRow) :
    T.scPerRow * r + i < T.codeOff := by
  have h := mul_add_lt hr hi
  rw [T.codeOff_eq, Nat.mul_comm T.scPerRow r, Nat.mul_comm T.scPerRow 64]
  exact h

theorem code_lt_slabBytes {r b : Nat} (hr : r < 64) (hb : b < T.codeBytes) :
    T.codeOff + r * T.codeBytes + b < T.slabBytes := by
  have h := mul_add_lt hr hb
  rw [T.slab_eq, Nat.mul_comm T.codeBytes 64]
  omega

/-- Quotient and remainder of `q * d + z` for a small `z`. -/
theorem mul_add_div_mod {q d z : Nat} (hz : z < d) :
    (q * d + z) / d = q ∧ (q * d + z) % d = z := by
  have hd : 0 < d := by omega
  refine ⟨?_, ?_⟩
  · rw [Nat.mul_comm, Nat.mul_add_div hd, Nat.div_eq_of_lt hz, Nat.add_zero]
  · rw [Nat.mul_comm, Nat.mul_add_mod, Nat.mod_eq_of_lt hz]

/-- An offset past the header is split into its slab and its offset in the slab. -/
theorem locate_slab {kb z : Nat} (hz : z < T.slabBytes) :
    T.locate (T.hdrBytes + kb * T.slabBytes + z)
      = if z < T.codeOff then .scale kb (z / T.scPerRow) (z % T.scPerRow)
        else .code kb ((z - T.codeOff) / T.codeBytes) ((z - T.codeOff) % T.codeBytes) := by
  have hsub : T.hdrBytes + kb * T.slabBytes + z - T.hdrBytes = kb * T.slabBytes + z := by
    omega
  have hdm := mul_add_div_mod (q := kb) hz
  rw [locate, if_neg (by omega), hsub]
  simp only [hdm.1, hdm.2]

/-- The offset of a place leads back to the place. -/
theorem locate_addr {l : Loc} (h : l.WF T KB) : T.locate (l.addr T) = l := by
  cases l with
  | anchor r hi =>
    -- the header: two bytes for a row
    have hr : r < 64 := h
    have hhdr := T.hdr_eq
    cases hi with
    | false =>
      have hx : 2 * r < T.hdrBytes := by omega
      simp [Loc.addr, locate, hx]
    | true =>
      have hx : 2 * r + 1 < T.hdrBytes := by omega
      have hdiv : (2 * r + 1) / 2 = r := by omega
      simp [Loc.addr, locate, hx, hdiv]
  | scale kb r i =>
    obtain ⟨_, hr, hi⟩ := h
    have hlt := T.scale_lt_codeOff hr hi
    have hslab := T.slab_eq
    have hdm := mul_add_div_mod (q := r) hi
    rw [Loc.addr, T.locate_slab (by omega), if_pos hlt, Nat.mul_comm T.scPerRow r,
      hdm.1, hdm.2]
  | code kb r b =>
    obtain ⟨_, hr, hb⟩ := h
    have hlt := T.code_lt_slabBytes hr hb
    have hdm := mul_add_div_mod (q := r) hb
    have hsub : T.codeOff + r * T.codeBytes + b - T.codeOff = r * T.codeBytes + b := by
      omega
    rw [Loc.addr, T.locate_slab hlt, if_neg (by omega), hsub, hdm.1, hdm.2]

/-- Every offset of a panel is the offset of a place of the panel. -/
theorem addr_locate {x : Nat} (hx : x < T.panelBytes KB) :
    (T.locate x).WF T KB ∧ (T.locate x).addr T = x := by
  by_cases hhdr : x < T.hdrBytes
  · have h := T.hdr_eq
    rw [locate, if_pos hhdr]
    refine ⟨show x / 2 < 64 by omega, ?_⟩
    show 2 * (x / 2) + (x % 2 == 1).toNat = x
    rcases Nat.mod_two_eq_zero_or_one x with h2 | h2 <;> simp [h2] <;> omega
  · -- Past the header: the slab, and then the part of the slab.
    have hdm := Nat.div_add_mod (x - T.hdrBytes) T.slabBytes
    have hz := Nat.mod_lt (x - T.hdrBytes) T.slabBytes_pos
    have hkb : (x - T.hdrBytes) / T.slabBytes < KB := by
      rw [Nat.div_lt_iff_lt_mul T.slabBytes_pos]
      have h : T.panelBytes KB = T.hdrBytes + KB * T.slabBytes := rfl
      omega
    have hxe : x = T.hdrBytes + (x - T.hdrBytes) / T.slabBytes * T.slabBytes
        + (x - T.hdrBytes) % T.slabBytes := by
      rw [Nat.mul_comm ((x - T.hdrBytes) / T.slabBytes)]
      omega
    generalize (x - T.hdrBytes) / T.slabBytes = kb at hkb hxe
    generalize (x - T.hdrBytes) % T.slabBytes = z at hz hxe
    rw [hxe, T.locate_slab hz]
    split
    · -- a scale byte
      rename_i hsc
      rw [T.codeOff_eq, Nat.mul_comm] at hsc
      refine ⟨⟨hkb, (Nat.div_lt_iff_lt_mul T.scPerRow_pos).mpr hsc,
        Nat.mod_lt _ T.scPerRow_pos⟩, ?_⟩
      show T.hdrBytes + kb * T.slabBytes
        + (T.scPerRow * (z / T.scPerRow) + z % T.scPerRow) = _
      rw [Nat.div_add_mod]
    · -- a code byte
      rename_i hsc
      have hslab := T.slab_eq
      refine ⟨⟨hkb, (Nat.div_lt_iff_lt_mul T.codeBytes_pos).mpr
        (by rw [Nat.mul_comm]; omega), Nat.mod_lt _ T.codeBytes_pos⟩, ?_⟩
      show T.hdrBytes + kb * T.slabBytes + (T.codeOff
        + (z - T.codeOff) / T.codeBytes * T.codeBytes + (z - T.codeOff) % T.codeBytes) = _
      have hdm' := Nat.div_add_mod (z - T.codeOff) T.codeBytes
      rw [Nat.mul_comm ((z - T.codeOff) / T.codeBytes)]
      omega

theorem addr_lt {l : Loc} (h : l.WF T KB) : l.addr T < T.panelBytes KB := by
  have hhdr := T.hdr_eq
  cases l with
  | anchor r hi =>
    have hr : r < 64 := h
    have hhi : hi.toNat ≤ 1 := Bool.toNat_le hi
    show 2 * r + hi.toNat < T.hdrBytes + KB * T.slabBytes
    omega
  | scale kb r i =>
    obtain ⟨hkb, hr, hi⟩ := h
    have hz := T.scale_lt_codeOff hr hi
    have hslab := T.slab_eq
    have hlt := mul_add_lt hkb (show T.scPerRow * r + i < T.slabBytes by omega)
    show T.hdrBytes + kb * T.slabBytes + (T.scPerRow * r + i)
      < T.hdrBytes + KB * T.slabBytes
    omega
  | code kb r b =>
    obtain ⟨hkb, hr, hb⟩ := h
    have hlt := mul_add_lt hkb (T.code_lt_slabBytes hr hb)
    show T.hdrBytes + kb * T.slabBytes + (T.codeOff + r * T.codeBytes + b)
      < T.hdrBytes + KB * T.slabBytes
    omega

end SlabTier

/-! ### The stores of a row, a panel and an expert -/

variable {w : Store}

variable {T : SlabTier}

/-- The stores of a row are the bytes of its places. -/
theorem mem_scatterRow {panel r : Nat} {c : RowCodes T.bookSize} (hr : r < 64) :
    w ∈ scatterRow T KB panel r c ↔
      ∃ l : Loc, l.WF T KB ∧ l.row = r ∧ w = (panel + l.addr T, l.byte T c) := by
  constructor
  · intro hw
    rw [scatterRow, List.mem_cons, List.mem_cons, List.mem_flatMap] at hw
    rcases hw with rfl | rfl | ⟨kb, hkb, hw⟩
    · exact ⟨.anchor r false, hr, rfl, rfl⟩
    · exact ⟨.anchor r true, hr, rfl, rfl⟩
    · -- in slab `kb`: the scale bytes, and then the code row
      rw [List.mem_range] at hkb
      rcases List.mem_append.mp hw with hw | hw
      · obtain ⟨i, hi, rfl⟩ := List.mem_map.mp hw
        refine ⟨.scale kb r i, ⟨hkb, hr, List.mem_range.mp hi⟩, rfl, ?_⟩
        simp only [Loc.addr, Loc.byte, Nat.add_assoc]
      · obtain ⟨b, hb, rfl⟩ := List.mem_map.mp hw
        refine ⟨.code kb r b, ⟨hkb, hr, List.mem_range.mp hb⟩, rfl, ?_⟩
        simp only [Loc.addr, Loc.byte, Nat.add_assoc]
  · rintro ⟨l, hl, rfl, rfl⟩
    rw [scatterRow, List.mem_cons, List.mem_cons, List.mem_flatMap]
    cases l with
    | anchor r hi =>
      cases hi with
      | false => exact Or.inl rfl
      | true => exact Or.inr (Or.inl rfl)
    | scale kb r i =>
      refine Or.inr (Or.inr ⟨kb, List.mem_range.mpr hl.1, List.mem_append_left _ ?_⟩)
      refine List.mem_map.mpr ⟨i, List.mem_range.mpr hl.2.2, ?_⟩
      simp only [Loc.addr, Loc.byte, Loc.row, Nat.add_assoc]
    | code kb r b =>
      refine Or.inr (Or.inr ⟨kb, List.mem_range.mpr hl.1, List.mem_append_right _ ?_⟩)
      refine List.mem_map.mpr ⟨b, List.mem_range.mpr hl.2.2, ?_⟩
      simp only [Loc.addr, Loc.byte, Loc.row, Nat.add_assoc]

/-- The stores of row `row` of an expert at `dst`: row `row % 64` of panel `row / 64`. -/
def scatterExpertRow (T : SlabTier) (dst K : Nat) (rows : Nat → RowCodes T.bookSize)
    (row : Nat) : List Store :=
  scatterRow T (K / 32) (dst + row / 64 * T.panelBytes (K / 32)) (row % 64) (rows row)

variable {row : Nat}

theorem mem_scatterExpertRow {dst K : Nat} {rows : Nat → RowCodes T.bookSize} :
    w ∈ scatterExpertRow T dst K rows row ↔ ∃ l : Loc, l.WF T (K / 32) ∧ l.row = row % 64 ∧
      w = (dst + row / 64 * T.panelBytes (K / 32) + l.addr T, l.byte T (rows row)) :=
  mem_scatterRow (Nat.mod_lt row (by decide))

/-- The stores of an expert are the stores of its `R / 64 * 64` rows. -/
theorem mem_scatterExpert {dst R K : Nat} {rows : Nat → RowCodes T.bookSize} :
    w ∈ scatterExpert T dst R K rows ↔
      ∃ row < R / 64 * 64, w ∈ scatterExpertRow T dst K rows row := by
  simp only [scatterExpert, scatterPanel, List.mem_flatMap, List.mem_range]
  constructor
  · rintro ⟨p, hp, r, hr, hw⟩
    have hdm := SlabTier.mul_add_div_mod (q := p) hr
    refine ⟨p * 64 + r, SlabTier.mul_add_lt hp hr, ?_⟩
    rwa [scatterExpertRow, hdm.1, hdm.2]
  · rintro ⟨row, hrow, hw⟩
    have hdm : row / 64 * 64 + row % 64 = row := Nat.div_add_mod' row 64
    refine ⟨row / 64, by omega, row % 64, Nat.mod_lt _ (by decide), ?_⟩
    rwa [hdm]

/-- A byte of an expert belongs to one place of one row: two rows that store to one
address are the same row, and the places are the same place. -/
theorem scatterExpertRow_inj {dst row' : Nat} {l l' : Loc} (hl : l.WF T KB) (hl' : l'.WF T KB)
    (hrow : l.row = row % 64) (hrow' : l'.row = row' % 64)
    (heq : dst + row / 64 * T.panelBytes KB + l.addr T =
      dst + row' / 64 * T.panelBytes KB + l'.addr T) : row = row' ∧ l = l' := by
  -- Quotient and remainder by the size of a panel give the panel and the place back.
  have hdm := SlabTier.mul_add_div_mod (q := row / 64) (T.addr_lt hl)
  have hdm' := SlabTier.mul_add_div_mod (q := row' / 64) (T.addr_lt hl')
  have hsum : row / 64 * T.panelBytes KB + l.addr T
      = row' / 64 * T.panelBytes KB + l'.addr T := by omega
  have hpanel : row / 64 = row' / 64 := by rw [← hdm.1, hsum, hdm'.1]
  have hoff : l.addr T = l'.addr T := by rw [← hdm.2, hsum, hdm'.2]
  have hll : l = l' := by rw [← T.locate_addr hl, hoff, T.locate_addr hl']
  subst hll
  exact ⟨by omega, rfl⟩

theorem scatterExpert_agree (T : SlabTier) (dst R K : Nat)
    (rows : Nat → RowCodes T.bookSize) : Stores.Agree (scatterExpert T dst R K rows) := by
  intro w hw w' hw' heq
  obtain ⟨row, _, hw⟩ := mem_scatterExpert.mp hw
  obtain ⟨row', _, hw'⟩ := mem_scatterExpert.mp hw'
  obtain ⟨l, hl, hlr, rfl⟩ := mem_scatterExpertRow.mp hw
  obtain ⟨l', hl', hlr', rfl⟩ := mem_scatterExpertRow.mp hw'
  obtain ⟨rfl, rfl⟩ := scatterExpertRow_inj hl hl' hlr hlr' heq
  rfl

/-- After the scatter step a place of the buffer holds the byte of its row. -/
theorem run_scatterExpert_apply {dst R K : Nat} (rows : Nat → RowCodes T.bookSize)
    (m : Nat → UInt8) {l : Loc} (hrow : row < R / 64 * 64) (hl : l.WF T (K / 32))
    (hlr : l.row = row % 64) :
    Stores.run (scatterExpert T dst R K rows) m
        (dst + row / 64 * T.panelBytes (K / 32) + l.addr T) = l.byte T (rows row) := by
  have hmem : (dst + row / 64 * T.panelBytes (K / 32) + l.addr T, l.byte T (rows row))
      ∈ scatterExpert T dst R K rows :=
    mem_scatterExpert.mpr ⟨row, hrow, mem_scatterExpertRow.mpr ⟨l, hl, hlr, rfl⟩⟩
  exact (scatterExpert_agree T dst R K rows).run_apply m hmem

/-- The rows of an expert cover its buffer: every byte of it is stored by some row. -/
theorem exists_scatterExpertRow {dst R K : Nat} (rows : Nat → RowCodes T.bookSize) {a : Nat}
    (ha : dst ≤ a) (ha' : a < dst + R / 64 * T.panelBytes (K / 32)) :
    ∃ row < R / 64 * 64, ∃ w ∈ scatterExpertRow T dst K rows row, w.1 = a := by
  have hpos := T.panelBytes_pos (K / 32)
  have hdm := Nat.div_add_mod' (a - dst) (T.panelBytes (K / 32))
  have hp : (a - dst) / T.panelBytes (K / 32) < R / 64 := by
    rw [Nat.div_lt_iff_lt_mul hpos]
    omega
  obtain ⟨hwf, haddr⟩ := T.addr_locate (Nat.mod_lt (a - dst) hpos)
  set p := (a - dst) / T.panelBytes (K / 32) with hpdef
  set l := T.locate ((a - dst) % T.panelBytes (K / 32)) with hldef
  have hr := hwf.row_lt
  have hrow := SlabTier.mul_add_div_mod (q := p) hr
  refine ⟨p * 64 + l.row, SlabTier.mul_add_lt hp hr, _,
    mem_scatterExpertRow.mpr ⟨l, hwf, hrow.2.symm, rfl⟩, ?_⟩
  rw [hrow.1, haddr]
  omega

end PxqLlama.Pxq
