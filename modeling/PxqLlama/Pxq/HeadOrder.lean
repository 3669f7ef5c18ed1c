import PxqLlama.Pxq.PanelLayout

/-!
# `Pxq.HeadOrder`: the order of the value heads

The linear-attention (GDN) tensors of a GGUF file have their value heads repeat-major: head
`n_k * r + k` is repeat `r` of key head `k`. The checkpoint wants them key-head-major, at
`R * k + r`. `namemap.py` derives the reordering from the geometry the file states: `gdnGeometry`
reads and checks it, `vHeadGather` is the order of the heads, and `gdnPermutation` is the gather
over the whole axis of one tensor class of `GDN_PERM_SPEC`.

`applyPermPxq4` and `unapplyPermPxq4` of `convert.py` move a split PXQ4 tensor by such a gather
and back.
-/

namespace PxqLlama.Pxq

/-! ### The geometry -/

/-- `GdnGeometry`, with what `gdn_geometry` checks before it builds one. -/
structure GdnGeometry where
  n_k_heads : Int
  n_v_heads : Int
  head_dim : Int
  value_dim : Int
  k_pos : 0 < n_k_heads
  v_pos : 0 < n_v_heads
  repeat_structure : n_v_heads % n_k_heads = 0
  value_dim_eq : n_v_heads * head_dim = value_dim

namespace GdnGeometry

/-- `repeats`: how many value heads share one key head. -/
def repeats (geom : GdnGeometry) : Int := geom.n_v_heads / geom.n_k_heads

/-- `key_dim`. -/
def key_dim (geom : GdnGeometry) : Int := geom.n_k_heads * geom.head_dim

end GdnGeometry

/-- `need` of `gdn_geometry`: the value under the first key the file has. `kv` gives a key's
value after `int(...)`. -/
def gdnNeed (kv : String → Option Int) (keys : List String) : Except String Int :=
  match keys.findSome? kv with
  | some v => .ok v
  | none =>
    .error ("the GGUF carries none of ("
      ++ ", ".intercalate (keys.map fun k => "'" ++ k ++ "'")
      ++ "). The GDN v-head permutation cannot be derived "
      ++ "without it, and emitting an unpermuted GDN checkpoint is the defect this refuses "
      ++ "to reintroduce.")

/-- `gdn_geometry`. -/
def gdnGeometry (kv : String → Option Int) : Except String GdnGeometry := do
  let n_k ← gdnNeed kv ["qwen35.ssm.group_count", "ssm.group_count"]
  let n_v ← gdnNeed kv ["qwen35.ssm.time_step_rank", "ssm.time_step_rank"]
  let head ← gdnNeed kv ["qwen35.ssm.state_size", "ssm.state_size"]
  let inner ← gdnNeed kv ["qwen35.ssm.inner_size", "ssm.inner_size"]
  if h : n_k ≤ 0 ∨ n_v ≤ 0 ∨ n_v % n_k ≠ 0 then
    .error ("GDN head counts are not a repeat structure: " ++ toString n_v ++ " v-heads over "
      ++ toString n_k ++ " k-heads")
  else if hi : n_v * head ≠ inner then
    .error ("GDN geometry inconsistent: n_v_heads*state_size = " ++ toString (n_v * head)
      ++ " but inner_size = " ++ toString inner)
  else
    .ok {
      n_k_heads := n_k, n_v_heads := n_v, head_dim := head, value_dim := inner
      k_pos := by omega
      v_pos := by omega
      repeat_structure := by omega
      value_dim_eq := by omega }

/-! ### The gather -/

/-- `v_head_gather`: entry `j` is where value head `j` of the checkpoint is in the file. -/
def vHeadGather (geom : GdnGeometry) : List Int :=
  (arange geom.n_v_heads.toNat).map fun j =>
    geom.n_k_heads * (j % geom.repeats) + j / geom.repeats

/-- The second entry of a row of `GDN_PERM_SPEC`. -/
inductive GdnOffset
  | zero
  | qk_offset
  deriving DecidableEq, Repr

/-- The third entry: an axis of one block of `head_dim` per head, or of one value per head. -/
inductive GdnUnit
  | head_block
  | head
  deriving DecidableEq, Repr

/-- A row of `GDN_PERM_SPEC`. -/
structure GdnSpec where
  axis : Nat
  offset : GdnOffset
  unit : GdnUnit
  deriving DecidableEq, Repr

/-- `GDN_PERM_SPEC`. -/
def GDN_PERM_SPEC : List (String × GdnSpec) :=
  [("attn_qkv.weight", ⟨0, .qk_offset, .head_block⟩),
   ("attn_gate.weight", ⟨0, .zero, .head_block⟩),
   ("ssm_out.weight", ⟨1, .zero, .head_block⟩),
   ("ssm_conv1d.weight", ⟨0, .qk_offset, .head_block⟩),
   ("ssm_alpha.weight", ⟨0, .zero, .head⟩),
   ("ssm_beta.weight", ⟨0, .zero, .head⟩),
   ("ssm_a", ⟨0, .zero, .head⟩),
   ("ssm_dt.bias", ⟨0, .zero, .head⟩)]

/-- `off` of `gdn_permutation`: the entries before the value heads. -/
def gdnOff (geom : GdnGeometry) (spec : GdnSpec) : Int :=
  if spec.offset = .qk_offset then geom.key_dim * 2 else 0

/-- `unit` of `gdn_permutation`. -/
def gdnUnit (geom : GdnGeometry) (spec : GdnSpec) : Int :=
  if spec.unit = .head_block then geom.head_dim else 1

/-- `gdn_permutation`: the axis and the gather over the whole of it, or nothing for a tensor
without a value-head axis. -/
def gdnPermutation (ggml_suffix : String) (geom : GdnGeometry) (axis_len : Nat) :
    Except String (Option (Nat × List Int)) :=
  match GDN_PERM_SPEC.lookup ggml_suffix with
  | none => .ok none
  | some spec =>
    let off := gdnOff geom spec
    let unit := gdnUnit geom spec
    let span := geom.n_v_heads * unit
    if (axis_len : Int) ≠ off + span then
      .error (ggml_suffix ++ ": axis " ++ toString spec.axis ++ " is " ++ toString axis_len
        ++ " long, but the GDN geometry says the v-head range is [" ++ toString off ++ ", "
        ++ toString (off + span) ++ "). Refusing to permute a tensor whose shape "
        ++ "we do not understand.")
    else
      .ok (some (spec.axis, arange off.toNat ++
        (vHeadGather geom).flatMap fun i => (arange unit.toNat).map (off + i * unit + ·)))

/-- `gdn_perm_for` for a tensor with this suffix and this `logical_shape`. -/
def gdnPermFor (ggml_name ggml_suffix : String) (shape : List Nat) (geom : GdnGeometry) :
    Except String (Option (Nat × List Int)) :=
  match GDN_PERM_SPEC.lookup ggml_suffix with
  | none => .ok none
  | some spec =>
    match shape[spec.axis]? with
    | none =>
      .error (ggml_name ++ ": GDN permutation wants axis " ++ toString spec.axis ++ " of a "
        ++ toString shape.length ++ "-D tensor")
    | some axis_len => gdnPermutation ggml_suffix geom axis_len

/-! ### Moving a split tensor -/

/-- `_apply_perm_pxq4`. -/
def applyPermPxq4 (pair : Pxq4Pair) (perm : Nat × List Int) : Except String Pxq4Pair :=
  if perm.1 = 0 then do
    let pidx ← blockGatherToPanels perm.2
    gatherPanels pair pidx
  else do
    let sidx ← colGatherToSlabs perm.2
    gatherSlabs pair sidx

/-- `_unapply_perm_pxq4`. -/
def unapplyPermPxq4 (pair : Pxq4Pair) (perm : Nat × List Int) : Except String Pxq4Pair :=
  if perm.1 = 0 then do
    let pidx ← blockGatherToPanels perm.2
    gatherPanels pair (unpermuteIndex pidx)
  else do
    let sidx ← colGatherToSlabs perm.2
    gatherSlabs pair (unpermuteIndex sidx)

/-- The element gather `perm` on a decoded tensor: of its rows, or of the columns of every
row. -/
def gatherElements {α : Type} (perm : Nat × List Int) (rows : List (List α)) : List (List α) :=
  if perm.1 = 0 then fancyIndex perm.2 rows else rows.map (fancyIndex perm.2)

end PxqLlama.Pxq
