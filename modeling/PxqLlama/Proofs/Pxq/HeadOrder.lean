import PxqLlama.Pxq.HeadOrder
import PxqLlama.Proofs.Pxq.PanelLayout

/-!
# `Proofs.Pxq.HeadOrder`: a head reordering is a move of whole blocks

`headOrder n_k R` is the order of the `n_k * R` value heads, as natural numbers: `j = R * k + r`
is read from `n_k * r + k`. It is a permutation (`headOrder_perm`), and `gdnPermutation` is the
identity on the q and k part followed by the spread of it (`gdnPermutation_eq_ok`).

`pxq4_moves_commute_with_decoding` collects what the converter relies on. Splitting loses no
byte. Shards and reorderings of a split tensor decode to slices and gathers of the decoded
tensor. A reordering can be undone.
-/

namespace PxqLlama.Pxq

open Gather (spread)

/-! ### The order of the heads -/

/-- `v_head_gather` for `n_k` key heads with `R` value heads each. -/
def headOrder (n_k R : Nat) : List Nat :=
  (List.range (n_k * R)).map fun j => n_k * (j % R) + j / R

theorem length_headOrder (n_k R : Nat) : (headOrder n_k R).length = n_k * R := by
  simp [headOrder]

/-- Key-head-major place `R * k + r` is read from repeat-major place `n_k * r + k`. -/
theorem getElem?_headOrder {n_k R k r : Nat} (hk : k < n_k) (hr : r < R) :
    (headOrder n_k R)[R * k + r]? = some (n_k * r + k) := by
  have hlt : R * k + r < n_k * R := by
    have hle : R * (k + 1) ≤ R * n_k := Nat.mul_le_mul_left R hk
    rw [Nat.mul_succ, Nat.mul_comm R n_k] at hle
    omega
  have hmod : (R * k + r) % R = r := by rw [Nat.mul_add_mod, Nat.mod_eq_of_lt hr]
  have hdiv : (R * k + r) / R = k := by
    rw [Nat.mul_add_div (by omega), Nat.div_eq_of_lt hr, Nat.add_zero]
  rw [headOrder, List.getElem?_map, List.getElem?_range hlt, Option.map_some, hmod, hdiv]

/-- The order of the heads is a permutation: the key head and the repeat can be read back from
`n_k * r + k`. -/
theorem headOrder_perm (n_k R : Nat) : (headOrder n_k R).Perm (List.range (n_k * R)) := by
  have hkey : ∀ j ∈ List.range (n_k * R), j / R < n_k := by
    intro j hj
    exact Nat.div_lt_of_lt_mul (by rw [Nat.mul_comm]; exact List.mem_range.mp hj)
  have hnodup : (headOrder n_k R).Nodup := by
    refine List.Nodup.map_on (fun i hi j hj h => ?_) List.nodup_range
    have hpos : 0 < n_k := Nat.lt_of_le_of_lt (Nat.zero_le _) (hkey i hi)
    have hquot : i / R = j / R := by
      have hmod := congrArg (· % n_k) h
      simpa only [Nat.mul_add_mod, Nat.mod_eq_of_lt (hkey i hi),
        Nat.mod_eq_of_lt (hkey j hj)] using hmod
    have hrem : i % R = j % R := by
      rw [hquot] at h
      exact Nat.eq_of_mul_eq_mul_left hpos (Nat.add_right_cancel h)
    rw [← Nat.div_add_mod i R, ← Nat.div_add_mod j R, hquot, hrem]
  have hsub : headOrder n_k R ⊆ List.range (n_k * R) := by
    intro i hi
    obtain ⟨j, hj, rfl⟩ := List.mem_map.mp hi
    have hk := hkey j hj
    have hR : 0 < R := Nat.pos_of_mul_pos_left
      (Nat.lt_of_le_of_lt (Nat.zero_le j) (List.mem_range.mp hj))
    have hle : n_k * (j % R + 1) ≤ n_k * R := Nat.mul_le_mul_left n_k (Nat.mod_lt j hR)
    rw [Nat.mul_succ] at hle
    exact List.mem_range.mpr (by omega)
  refine (List.subperm_of_subset hnodup hsub).perm_of_length_le ?_
  exact Nat.le_of_eq (by rw [length_headOrder, List.length_range])

/-- The heads of an accepted geometry, counted in natural numbers. -/
theorem n_v_heads_eq (geom : GdnGeometry) :
    geom.n_v_heads.toNat = geom.n_k_heads.toNat * geom.repeats.toNat ∧ 0 < geom.repeats := by
  have hdvd : geom.n_k_heads ∣ geom.n_v_heads := Int.dvd_of_emod_eq_zero geom.repeat_structure
  have hmul : geom.n_k_heads * geom.repeats = geom.n_v_heads := Int.mul_ediv_cancel' hdvd
  have hpos : 0 < geom.repeats := by
    refine Int.not_le.mp fun hle => ?_
    have hneg := Int.mul_nonpos_of_nonneg_of_nonpos (Int.le_of_lt geom.k_pos) hle
    have := geom.v_pos
    omega
  refine ⟨?_, hpos⟩
  rw [← Int.toNat_mul (Int.le_of_lt geom.k_pos) (Int.le_of_lt hpos), hmul]

theorem vHeadGather_eq (geom : GdnGeometry) :
    vHeadGather geom = (headOrder geom.n_k_heads.toNat geom.repeats.toNat).map Int.ofNat := by
  obtain ⟨hheads, hpos⟩ := n_v_heads_eq geom
  rw [vHeadGather, arange, headOrder, hheads, List.map_map, List.map_map]
  refine List.map_congr_left fun j _ => ?_
  have hk : ((geom.n_k_heads.toNat : Nat) : Int) = geom.n_k_heads :=
    Int.toNat_of_nonneg (Int.le_of_lt geom.k_pos)
  have hR : ((geom.repeats.toNat : Nat) : Int) = geom.repeats :=
    Int.toNat_of_nonneg (Int.le_of_lt hpos)
  show geom.n_k_heads * ((j : Int) % geom.repeats) + (j : Int) / geom.repeats
    = ((geom.n_k_heads.toNat * (j % geom.repeats.toNat) + j / geom.repeats.toNat : Nat) : Int)
  rw [Int.natCast_add, Int.natCast_mul, Int.natCast_emod, Int.natCast_ediv, hk, hR]

/-! ### The gather over the whole axis -/

/-- The gather of `gdn_permutation` in natural numbers: `off` entries stay, and the heads of
`unit` entries each are in the order of `headOrder`. -/
def gdnGather (off unit n_k R : Nat) : List Nat :=
  List.range off ++ (spread unit (headOrder n_k R)).map (off + ·)

theorem gdnGather_perm (off unit n_k R : Nat) :
    (gdnGather off unit n_k R).Perm (List.range (off + n_k * R * unit)) := by
  rw [List.range_add]
  exact List.Perm.append_left _ ((Gather.spread_perm (headOrder_perm n_k R) unit).map _)

theorem getElem?_gdnGather_of_lt {off i : Nat} (h : i < off) (unit n_k R : Nat) :
    (gdnGather off unit n_k R)[i]? = some i := by
  rw [gdnGather, List.getElem?_append_left (by simpa using h), List.getElem?_range h]

theorem getElem?_gdnGather {off unit n_k R k r t : Nat} (hk : k < n_k) (hr : r < R)
    (ht : t < unit) :
    (gdnGather off unit n_k R)[off + ((R * k + r) * unit + t)]?
      = some (off + ((n_k * r + k) * unit + t)) := by
  have hright : (List.range off).length ≤ off + ((R * k + r) * unit + t) := by
    rw [List.length_range]
    exact Nat.le_add_right _ _
  rw [gdnGather, List.getElem?_append_right hright, List.length_range, Nat.add_sub_cancel_left,
    List.getElem?_map, Nat.mul_comm (R * k + r) unit, Gather.getElem?_spread ht,
    getElem?_headOrder hk hr, Nat.mul_comm (n_k * r + k) unit]
  rfl

/-- Where the offset and a head are whole numbers of `u` entries, the gather is one of pieces of
`u` entries. -/
theorem gdnGather_eq_spread (u a c n_k R : Nat) :
    ∃ ns : List Nat, ns.Perm (List.range ns.length) ∧
      gdnGather (u * a) (u * c) n_k R = spread u ns := by
  have hperm := gdnGather_perm a c n_k R
  refine ⟨gdnGather a c n_k R, ?_, ?_⟩
  · rwa [hperm.length_eq, List.length_range]
  · rw [gdnGather, gdnGather, ← Gather.spread_spread, Gather.map_add_spread, Gather.spread_append,
      Gather.spread_range, Nat.mul_comm a u]

variable {suffix : String} {spec : GdnSpec} {geom : GdnGeometry} {axis_len : Nat}
  {perm : Nat × List Int}

/-- No row of the table has q and k parts on an axis of single values. -/
theorem offset_zero_of_head (h : GDN_PERM_SPEC.lookup suffix = some spec)
    (hunit : spec.unit = .head) : spec.offset = .zero := by
  have htable : ∀ entry ∈ GDN_PERM_SPEC, entry.2.unit = .head → entry.2.offset = .zero := by
    decide
  have hmem : (suffix, spec) ∈ GDN_PERM_SPEC := by
    obtain ⟨l₁, l₂, heq, -⟩ := List.lookup_eq_some_iff.mp h
    rw [heq]
    exact List.mem_append_right _ List.mem_cons_self
  exact htable _ hmem hunit

/-- An axis of the length the geometry asks for leaves no room for a negative head size. -/
theorem gdnUnit_nonneg (h : GDN_PERM_SPEC.lookup suffix = some spec)
    (hlen : (axis_len : Int) = gdnOff geom spec + geom.n_v_heads * gdnUnit geom spec) :
    0 ≤ gdnOff geom spec ∧ 0 ≤ gdnUnit geom spec := by
  have hk := geom.k_pos
  have hv := geom.v_pos
  cases hunit : spec.unit with
  | head =>
      have hoff := offset_zero_of_head h hunit
      have hu : gdnUnit geom spec = 1 := by simp [gdnUnit, hunit]
      have ho : gdnOff geom spec = 0 := by simp [gdnOff, hoff]
      omega
  | head_block =>
      have hu : gdnUnit geom spec = geom.head_dim := by simp [gdnUnit, hunit]
      have hdim : 0 ≤ geom.head_dim := by
        refine Int.not_lt.mp fun hneg => ?_
        have hspan : geom.n_v_heads * geom.head_dim < 0 := Int.mul_neg_of_pos_of_neg hv hneg
        have hkey : geom.key_dim < 0 := Int.mul_neg_of_pos_of_neg hk hneg
        rw [hu] at hlen
        unfold gdnOff at hlen
        split at hlen <;> omega
      have hkey : 0 ≤ geom.key_dim := Int.mul_nonneg (Int.le_of_lt hk) hdim
      refine ⟨?_, hu ▸ hdim⟩
      unfold gdnOff
      split <;> omega

/-- What `gdn_permutation` gives for an axis it accepts. -/
theorem gdnPermutation_eq_ok (h : gdnPermutation suffix geom axis_len = .ok (some perm)) :
    ∃ (spec : GdnSpec) (off unit : Nat), GDN_PERM_SPEC.lookup suffix = some spec ∧
      perm.1 = spec.axis ∧ gdnOff geom spec = off ∧ gdnUnit geom spec = unit ∧
      axis_len = off + geom.n_k_heads.toNat * geom.repeats.toNat * unit ∧
      perm.2 = (gdnGather off unit geom.n_k_heads.toNat geom.repeats.toNat).map Int.ofNat := by
  unfold gdnPermutation at h
  cases hspec : GDN_PERM_SPEC.lookup suffix with
  | none => simp [hspec] at h
  | some spec =>
      simp only [hspec] at h
      split at h
      · cases h
      next hlen =>
      have hlen' := Decidable.not_not.mp hlen
      obtain ⟨hoff, hunit⟩ := gdnUnit_nonneg hspec hlen'
      obtain ⟨off, hoff'⟩ := Int.eq_ofNat_of_zero_le hoff
      obtain ⟨unit, hunit'⟩ := Int.eq_ofNat_of_zero_le hunit
      have hperm : perm = _ := (Option.some.inj (Except.ok.inj h)).symm
      obtain ⟨hheads, -⟩ := n_v_heads_eq geom
      refine ⟨spec, off, unit, rfl, by rw [hperm], hoff', hunit', ?_, ?_⟩
      · rw [← hheads]
        have hv : ((geom.n_v_heads.toNat : Nat) : Int) = geom.n_v_heads :=
          Int.toNat_of_nonneg (Int.le_of_lt geom.v_pos)
        have hcast : (axis_len : Int) = ((off + geom.n_v_heads.toNat * unit : Nat) : Int) := by
          rw [Int.natCast_add, Int.natCast_mul, hv, hlen', hoff', hunit']
        exact Int.ofNat.inj hcast
      · rw [hperm, hoff', hunit', vHeadGather_eq, gdnGather, List.map_append, List.map_map,
          Int.toNat_natCast, Int.toNat_natCast, List.flatMap_map, spread, List.map_flatMap]
        refine congrArg (arange off ++ ·) (List.flatMap_congr fun i _ => ?_)
        rw [arange, List.range'_eq_map_range, List.map_map, List.map_map]
        refine List.map_congr_left fun t _ => ?_
        show (off : Int) + (i : Int) * unit + (t : Int) = ((off + (unit * i + t) : Nat) : Int)
        rw [Int.natCast_add, Int.natCast_add, Int.natCast_mul, Int.mul_comm (i : Int) unit,
          Int.add_assoc]

/-- What the gather of one tensor class has to be. Every place of the axis is read once. The q
and k part stays. Entry `t` of value head `R * k + r` is read from head `n_k * r + k`. -/
structure GdnReorder (geom : GdnGeometry) (spec : GdnSpec) (axis_len : Nat) (g : List Int) :
    Prop where
  bijection : ∃ ns : List Nat, g = ns.map Int.ofNat ∧ ns.Perm (List.range axis_len)
  fixed : ∀ i : Nat, (i : Int) < gdnOff geom spec → g[i]? = some (i : Int)
  moved : ∀ k r t : Nat, (k : Int) < geom.n_k_heads → (r : Int) < geom.repeats →
    (t : Int) < gdnUnit geom spec →
    g[(gdnOff geom spec + (geom.repeats * k + r) * gdnUnit geom spec + t).toNat]?
      = some (gdnOff geom spec + (geom.n_k_heads * r + k) * gdnUnit geom spec + t)

/-- A permutation that is built is the reorder of its table entry. -/
theorem gdnReorder_gdnPermutation (h : gdnPermutation suffix geom axis_len = .ok (some perm)) :
    ∃ spec, GDN_PERM_SPEC.lookup suffix = some spec ∧ perm.1 = spec.axis ∧
      GdnReorder geom spec axis_len perm.2 := by
  obtain ⟨spec, off, unit, hspec, haxis, hoff, hunit, hlen, hg⟩ := gdnPermutation_eq_ok h
  obtain ⟨-, hRpos⟩ := n_v_heads_eq geom
  have hk : ((geom.n_k_heads.toNat : Nat) : Int) = geom.n_k_heads :=
    Int.toNat_of_nonneg (Int.le_of_lt geom.k_pos)
  have hR : ((geom.repeats.toNat : Nat) : Int) = geom.repeats :=
    Int.toNat_of_nonneg (Int.le_of_lt hRpos)
  generalize geom.n_k_heads.toNat = n_k at hk hlen hg
  generalize geom.repeats.toNat = R at hR hlen hg
  refine ⟨spec, hspec, haxis, ⟨_, hg, hlen ▸ gdnGather_perm off unit n_k R⟩, ?_, ?_⟩
  · intro i hi
    rw [hoff] at hi
    rw [hg, List.getElem?_map, getElem?_gdnGather_of_lt (Int.ofNat_lt.mp hi)]
    rfl
  · intro k r t hkk hrr htt
    rw [← hk] at hkk
    rw [← hR] at hrr
    rw [hunit] at htt
    have hplace : ((off : Int) + (R * k + r) * unit + t).toNat
        = off + ((R * k + r) * unit + t) := by
      have hcast : (off : Int) + (R * k + r) * unit + t
          = ((off + ((R * k + r) * unit + t) : Nat) : Int) := by
        push_cast
        exact Int.add_assoc _ _ _
      rw [hcast, Int.toNat_natCast]
    have hread : (gdnGather off unit n_k R)[off + ((R * k + r) * unit + t)]?
        = some (off + ((n_k * r + k) * unit + t)) :=
      getElem?_gdnGather (Int.ofNat_lt.mp hkk) (Int.ofNat_lt.mp hrr) (Int.ofNat_lt.mp htt)
    rw [hoff, hunit, ← hk, ← hR, hplace, hg, List.getElem?_map, hread]
    show some ((off + ((n_k * r + k) * unit + t) : Nat) : Int) = _
    push_cast
    rw [Int.add_assoc]

/-- For heads of whole pieces of `u` entries the gather of `gdn_permutation` is accepted. The
heads of the models that are converted have 128 entries, two panels or four slabs. -/
theorem gdnPermutation_accepted (h : gdnPermutation suffix geom axis_len = .ok (some perm))
    (hspec : GDN_PERM_SPEC.lookup suffix = some spec) (hblock : spec.unit = .head_block) {u : Nat}
    (hu : 0 < u) (hdvd : (u : Int) ∣ geom.head_dim) (lenError : Nat → String)
    (alignError sourceError what : String) :
    ∃ idx, gatherToUnits u lenError alignError sourceError what perm.2 = .ok idx := by
  obtain ⟨spec', off, unit, hspec', -, hoff, hunit, -, hg⟩ := gdnPermutation_eq_ok h
  obtain rfl : spec' = spec := Option.some.inj (hspec'.symm.trans hspec)
  have hhead : gdnUnit geom spec' = geom.head_dim := by simp [gdnUnit, hblock]
  have hdvdUnit : u ∣ unit := by
    rw [← hhead, hunit] at hdvd
    exact Int.natCast_dvd_natCast.mp hdvd
  have hdvdOff : u ∣ off := by
    have hkey : (u : Int) ∣ gdnOff geom spec' := by
      unfold gdnOff
      split
      · exact Dvd.dvd.mul_right (Dvd.dvd.mul_left hdvd _) 2
      · exact Int.dvd_zero _
    rw [hoff] at hkey
    exact Int.natCast_dvd_natCast.mp hkey
  obtain ⟨a, rfl⟩ := hdvdOff
  obtain ⟨c, rfl⟩ := hdvdUnit
  obtain ⟨ns, hperm, hns⟩ := gdnGather_eq_spread u a c geom.n_k_heads.toNat geom.repeats.toNat
  exact ⟨_, (gatherToUnits_eq_ok hu).mpr ⟨ns, rfl, hperm, by rw [hg, hns]⟩⟩

/-! ### Moving a split tensor -/

/-- `perm` is accepted by the conversion of its axis, and has one entry for each place of that
axis of the decoded tensor. -/
def GatherFits (pair : Pxq4Pair) (perm : Nat × List Int) : Prop :=
  if perm.1 = 0 then
    perm.2.length = PANEL_ROWS * pair.P ∧ ∃ idx, blockGatherToPanels perm.2 = .ok idx
  else
    perm.2.length = SLAB_COLS * pair.S ∧ ∃ idx, colGatherToSlabs perm.2 = .ok idx

/-- An accepted gather with an entry for each place moves all units. -/
theorem units_of_gather {u n : Nat} {lenError : Nat → String}
    {alignError sourceError what : String} {g idx : List Int} (hu : 0 < u) (hlen : g.length = u * n)
    (h : gatherToUnits u lenError alignError sourceError what g = .ok idx) :
    ∃ ns : List Nat, idx = ns.map Int.ofNat ∧ g = (Gather.spread u ns).map Int.ofNat ∧
      (∀ what, assertPermutation (ns.map Int.ofNat) n what = .ok (ns.map Int.ofNat)) ∧
      ∀ {β : Type} (l : List β), l.length = n →
        (fancyIndex (ns.map Int.ofNat) l).length = n := by
  obtain ⟨ns, rfl, hperm, hg⟩ := (gatherToUnits_eq_ok hu).mp h
  have hn : ns.length = n := by
    rw [hg, List.length_map, Gather.length_spread] at hlen
    exact Nat.eq_of_mul_eq_mul_left hu hlen
  rw [hn] at hperm
  refine ⟨ns, rfl, hg, fun what => assertPermutation_eq_ok.mpr ⟨rfl, ns, rfl, hperm⟩,
    fun l hl => ?_⟩
  have hvalid : ∀ i ∈ ns, i < l.length := fun i hi => hl ▸ Gather.lt_of_perm_range hperm hi
  rw [fancyIndex_ofNat, Gather.length_gather hvalid, hn]

section
variable {α : Type} [Mul α] (tabs : PxqTables α)

/-- A reorder of the rows moves panels and anchors, and decoding commutes with it. -/
theorem applyPermPxq4_panels {pair : Pxq4Pair} (haxis : perm.1 = 0) (h : GatherFits pair perm) :
    ∃ moved, applyPermPxq4 pair perm = .ok moved ∧
      dequant tabs moved = gatherElements perm (dequant tabs pair) ∧
      unapplyPermPxq4 moved perm = .ok pair := by
  rw [GatherFits, if_pos haxis] at h
  obtain ⟨hlen, idx, hidx⟩ := h
  obtain ⟨ns, rfl, hg, hok, hfancy⟩ := units_of_gather (by decide) hlen hidx
  obtain ⟨hinv, hback⟩ := assertPermutation_unpermuteIndex "panel gather" (hok "panel gather")
  have hmovedP : (pair.indexPanels (ns.map Int.ofNat)).P = pair.P := hfancy pair.slabs rfl
  refine ⟨pair.indexPanels (ns.map Int.ofNat), ?_, ?_, ?_⟩
  · rw [applyPermPxq4, if_pos haxis, hidx]
    show gatherPanels pair (ns.map Int.ofNat) = _
    rw [gatherPanels, hok]
    rfl
  · rw [dequant_indexPanels, gatherElements, if_pos haxis, hg]
  · rw [unapplyPermPxq4, if_pos haxis, hidx]
    show gatherPanels _ (unpermuteIndex (ns.map Int.ofNat)) = _
    rw [gatherPanels, hmovedP, hinv]
    show Except.ok _ = Except.ok pair
    refine congrArg Except.ok (Pxq4Pair.ext rfl ?_ ?_)
    · exact hback pair.slabs rfl
    · exact hback pair.anchor pair.length_anchor

/-- A reorder along the columns moves blocks within a panel. -/
theorem applyPermPxq4_slabs {pair : Pxq4Pair} (haxis : perm.1 ≠ 0) (h : GatherFits pair perm) :
    ∃ moved, applyPermPxq4 pair perm = .ok moved ∧
      dequant tabs moved = gatherElements perm (dequant tabs pair) ∧
      unapplyPermPxq4 moved perm = .ok pair := by
  rw [GatherFits, if_neg haxis] at h
  obtain ⟨hlen, idx, hidx⟩ := h
  obtain ⟨ns, rfl, hg, hok, hfancy⟩ := units_of_gather (by decide) hlen hidx
  obtain ⟨hinv, hback⟩ := assertPermutation_unpermuteIndex "slab gather" (hok "slab gather")
  have hmovedS : (pair.indexSlabs (ns.map Int.ofNat)).S = pair.S :=
    hfancy (List.range pair.S) List.length_range
  have hrangeBack := hback (List.range pair.S) List.length_range
  refine ⟨pair.indexSlabs (ns.map Int.ofNat), ?_, ?_, ?_⟩
  · rw [applyPermPxq4, if_neg haxis, hidx]
    show gatherSlabs pair (ns.map Int.ofNat) = _
    rw [gatherSlabs, hok]
    rfl
  · rw [dequant_indexSlabs, gatherElements, if_neg haxis, hg]
  · rw [unapplyPermPxq4, if_neg haxis, hidx]
    show gatherSlabs _ (unpermuteIndex (ns.map Int.ofNat)) = _
    rw [gatherSlabs, hmovedS, hinv]
    show Except.ok _ = Except.ok pair
    refine congrArg Except.ok (Pxq4Pair.ext ?_ ?_ rfl)
    · show (fancyIndex _ (List.range (fancyIndex _ (List.range pair.S)).length)).length = pair.S
      have hlenBack := congrArg List.length hrangeBack
      rw [List.length_range] at hlenBack
      rw [← hlenBack]
      refine length_fancyIndex_congr _ ?_
      rw [List.length_range, hlenBack]
    · show (pair.slabs.map (fancyIndex _)).map (fancyIndex _) = pair.slabs
      rw [List.map_map]
      conv_rhs => rw [← List.map_id pair.slabs]
      exact List.map_congr_left fun panel hp => hback panel (pair.length_panel panel hp)

/-- Splitting, sharding and head reordering of PXQ4 tensors commute with decoding. -/
theorem pxq4_moves_commute_with_decoding :
    (∀ (N K : Int) (blob : List UInt8), tensorBytes N K = .ok (blob.length : Int) →
      ∃ pair, splitBlob blob N K = .ok pair ∧ (pair.P : Int) = N / PANEL_ROWS ∧
        (pair.S : Int) = K / SLAB_COLS ∧ joinBlob pair = blob) ∧
    (∀ (pair : Pxq4Pair) (row_beg row_end : Int),
      row_beg % PANEL_ROWS = 0 → row_end % PANEL_ROWS = 0 →
      ∃ shard, shardColumns pair row_beg row_end = .ok shard ∧
        dequant tabs shard = pySlice (dequant tabs pair) row_beg row_end) ∧
    (∀ (pair : Pxq4Pair) (k_beg k_end : Int), k_beg % SLAB_COLS = 0 → k_end % SLAB_COLS = 0 →
      ∃ shard, shardK pair k_beg k_end = .ok shard ∧
        dequant tabs shard = (dequant tabs pair).map fun row => pySlice row k_beg k_end) ∧
    (∀ (kv : String → Option Int) (geom : GdnGeometry), gdnGeometry kv = .ok geom →
      ∀ (name suffix : String) (shape : List Nat) (perm : Nat × List Int),
      gdnPermFor name suffix shape geom = .ok (some perm) →
      ∃ spec axis_len, GDN_PERM_SPEC.lookup suffix = some spec ∧ perm.1 = spec.axis ∧
        shape[spec.axis]? = some axis_len ∧ GdnReorder geom spec axis_len perm.2) ∧
    (∀ (pair : Pxq4Pair) (perm : Nat × List Int), GatherFits pair perm →
      ∃ moved, applyPermPxq4 pair perm = .ok moved ∧
        dequant tabs moved = gatherElements perm (dequant tabs pair) ∧
        unapplyPermPxq4 moved perm = .ok pair) := by
  refine ⟨fun N K blob h => joinBlob_splitBlob h, ?_, ?_, ?_, ?_⟩
  · intro pair row_beg row_end hbeg hend
    refine ⟨_, by rw [shardColumns, if_neg (by omega)], ?_⟩
    rw [dequant_slicePanels, Int.mul_ediv_cancel' (Int.dvd_of_emod_eq_zero hbeg),
      Int.mul_ediv_cancel' (Int.dvd_of_emod_eq_zero hend)]
  · intro pair k_beg k_end hbeg hend
    refine ⟨_, by rw [shardK, if_neg (by omega)], ?_⟩
    rw [dequant_sliceSlabs, Int.mul_ediv_cancel' (Int.dvd_of_emod_eq_zero hbeg),
      Int.mul_ediv_cancel' (Int.dvd_of_emod_eq_zero hend)]
  · intro kv geom _ name suffix shape perm h
    unfold gdnPermFor at h
    cases hspec : GDN_PERM_SPEC.lookup suffix with
    | none => simp [hspec] at h
    | some spec =>
        simp only [hspec] at h
        cases hshape : shape[spec.axis]? with
        | none => simp [hshape] at h
        | some axis_len =>
            simp only [hshape] at h
            obtain ⟨spec', hspec', haxis, hreorder⟩ := gdnReorder_gdnPermutation h
            obtain rfl : spec' = spec := Option.some.inj (hspec'.symm.trans hspec)
            exact ⟨spec', axis_len, rfl, haxis, hshape, hreorder⟩
  · intro pair perm h
    by_cases haxis : perm.1 = 0
    · exact applyPermPxq4_panels tabs haxis h
    · exact applyPermPxq4_slabs tabs haxis h

end

/-- The key values of a file with 2 key heads, 4 value heads of 64 entries. -/
def gdnSampleKv (key : String) : Option Int :=
  [("qwen35.ssm.group_count", 2), ("qwen35.ssm.time_step_rank", 4), ("ssm.state_size", 64),
    ("ssm.inner_size", 256)].lookup key

/-- The value heads of one `attn_gate` tensor of four panels, moved and moved back. -/
theorem pxq4_moves_commute_with_decoding_attn_gate (tabs : PxqTables Nat) :
    ∃ pair geom perm moved,
      splitBlob ((List.range 4864).map UInt8.ofNat) 256 32 = .ok pair ∧
      joinBlob pair = (List.range 4864).map UInt8.ofNat ∧
      gdnGeometry gdnSampleKv = .ok geom ∧
      gdnPermFor "blk.0.attn_gate.weight" "attn_gate.weight" [256, 32] geom = .ok (some perm) ∧
      GdnReorder geom ⟨0, .zero, .head_block⟩ 256 perm.2 ∧
      applyPermPxq4 pair perm = .ok moved ∧
      dequant tabs moved = fancyIndex perm.2 (dequant tabs pair) ∧
      unapplyPermPxq4 moved perm = .ok pair := by
  obtain ⟨hsplit, -, -, hgdn, hmove⟩ := pxq4_moves_commute_with_decoding tabs
  obtain ⟨pair, hpair, hP, -, hjoin⟩ := hsplit 256 32 ((List.range 4864).map UInt8.ofNat)
    (by rw [List.length_map, List.length_range]; rfl)
  obtain ⟨geom, hgeom, hk, hv, hd⟩ : ∃ geom, gdnGeometry gdnSampleKv = .ok geom ∧
      geom.n_k_heads = 2 ∧ geom.n_v_heads = 4 ∧ geom.head_dim = 64 := ⟨_, rfl, rfl, rfl, rfl⟩
  have hlookup : GDN_PERM_SPEC.lookup "attn_gate.weight" = some ⟨0, .zero, .head_block⟩ := rfl
  have hlen : ((256 : Nat) : Int) = gdnOff geom ⟨0, .zero, .head_block⟩
      + geom.n_v_heads * gdnUnit geom ⟨0, .zero, .head_block⟩ := by
    simp [gdnOff, gdnUnit, hv, hd]
  obtain ⟨perm, hperm, haxis⟩ : ∃ perm, gdnPermutation "attn_gate.weight" geom 256
      = .ok (some perm) ∧ perm.1 = 0 := by
    rw [gdnPermutation, hlookup]
    exact ⟨_, if_neg (not_not_intro hlen), rfl⟩
  have hfor : gdnPermFor "blk.0.attn_gate.weight" "attn_gate.weight" [256, 32] geom
      = .ok (some perm) := hperm
  obtain ⟨spec, axis_len, hspec, -, hshape, hreorder⟩ := hgdn _ geom hgeom _ _ _ perm hfor
  obtain rfl : spec = ⟨0, .zero, .head_block⟩ := Option.some.inj (hspec.symm.trans hlookup)
  obtain rfl : axis_len = 256 := (Option.some.inj hshape).symm
  have hfits : GatherFits pair perm := by
    rw [GatherFits, if_pos haxis]
    constructor
    · obtain ⟨ns, hns, hns'⟩ := hreorder.bijection
      have hpanels : pair.P = 4 := Int.ofNat.inj hP
      rw [hns, List.length_map, hns'.length_eq, hpanels, List.length_range]
      rfl
    · exact gdnPermutation_accepted hperm hlookup rfl (u := PANEL_ROWS) (by decide)
        (by rw [hd]; decide) _ _ _ _
  obtain ⟨moved, happly, hdeq, hback⟩ := hmove pair perm hfits
  rw [gatherElements, if_pos haxis] at hdeq
  exact ⟨pair, geom, perm, moved, hpair, hjoin, hgeom, hfor, hreorder, happly, hdeq, hback⟩
end PxqLlama.Pxq
