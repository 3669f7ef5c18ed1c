import PxqLlama.Kv.Context
import PxqLlama.Kv.DefragGraph
import PxqLlama.Lib.Rows

/-!
# `Kv.Tensors`: the tensors of the cache

Each layer has a tensor of keys, one of values, and, in a hybrid model, one of recurrent state;
a layer can lack any of them. With split mode `graph` a tensor is split: each device has a slice
of its rows, or, in an MLA model, a copy of them. The slices of keys and values follow those of
the weights that compute them (`get_kv_cache_split_tensor`).

`StateCtx` is a context with its tensors, where the head of the cache is one of its cells, or
behind the last.
-/

namespace PxqLlama.Kv

/-! ### Types and tensors -/

deriving instance DecidableEq for GgmlType

/-- A `ggml_type`: its number, and how its values lie in memory. -/
structure TensorType extends GgmlType where
  id : Nat
  deriving DecidableEq

/-- `GGML_TYPE_F32`. -/
def TensorType.f32 : TensorType :=
  ⟨⟨1, 4, 0, by decide, by decide, by decide⟩, 0⟩

/-- `GGML_TYPE_F16`. -/
def TensorType.f16 : TensorType :=
  ⟨⟨1, 2, 0, by decide, by decide, by decide⟩, 1⟩

/-- `GGML_TYPE_Q8_KV`. -/
def TensorType.q8KV : TensorType :=
  ⟨⟨32, 32, 8, by decide, by decide, by decide⟩, 151⟩

/-- `ggml_row_size`. -/
def TensorType.rowSize (type : TensorType) (ne : Nat) : Nat := ggmlRowSize type.toGgmlType ne

/-- What of a `ggml_tensor` of two dimensions says where its bytes are. -/
structure GgmlTensor where
  type : TensorType
  ne0 : Nat
  ne1 : Nat
  deriving DecidableEq

/-- `ggml_nbytes`. -/
def GgmlTensor.nbytes (t : GgmlTensor) : Nat :=
  if t.ne0 = 0 ∨ t.ne1 = 0 then 0
  else if t.type.blckSize = 1 then
    -- without the bytes in front of the first row
    t.type.typeSize + (t.ne0 - 1) * t.type.typeSize + (t.ne1 - 1) * t.type.rowSize t.ne0
  else t.type.rowSize t.ne0 + (t.ne1 - 1) * t.type.rowSize t.ne0

/-- The assertion of `ggml_backend_tensor_get` and `ggml_backend_tensor_set`. -/
def GgmlTensor.inBounds (t : GgmlTensor) (offset size : Nat) : Bool :=
  decide (offset + size ≤ t.nbytes)

/-! ### Layers -/

/-- A weight of a layer: `ne[1]`, and, when it is split, `ne[1]` of its slice on each device. -/
structure Weight where
  ne1 : Nat
  extra : Option (List (Option Nat)) := none

/-- A tensor of the cache, and, when it is split, its slice on each device. -/
structure CacheTensor extends GgmlTensor where
  extra : Option (List (Option GgmlTensor)) := none

/-- A layer: its tensors in the cache, and what the model says of it. -/
structure Layer where
  k : Option CacheTensor := none
  v : Option CacheTensor := none
  s : Option CacheTensor := none
  /-- `n_embd_k_gqa(il)`. -/
  nEmbdKGqa : Nat := 0
  /-- `n_embd_k_s()`. -/
  nEmbdKS : Nat := 0
  /-- `n_embd_head_k(il)`. -/
  nEmbdHeadK : Nat := 0
  /-- `llama_kv_v_row_embd`. -/
  vRowEmbd : Nat := 0
  /-- `recurrent_layer_arr[il]`. -/
  recurrent : Bool := false
  wk : Option Weight := none
  wv : Option Weight := none
  /-- `ne[0]` of `attn_k_norm`. -/
  attnKNorm : Option Nat := none

/-- The tensors of a cache. -/
structure KvShape where
  layers : List Layer
  /-- `v_l.empty()`. -/
  vEmpty : Bool := false
  vTrans : Bool := false
  isMla : Bool := false
  mlaAttn : Nat := 0
  nRot : Nat := 0
  nLoraKv : Nat := 0

/-- `v_state` of the writer. -/
def KvShape.vState (shape : KvShape) : Nat :=
  if shape.vEmpty then 2 else if shape.vTrans then 1 else 0

/-- `llama_kv_qnext_state_slots`. -/
def KvShape.stateSlots (shape : KvShape) : Nat :=
  ((shape.layers.filterMap (·.s)).head?.map (·.ne1)).getD 0

/-- `k_size_row`. -/
def kSizeRow (shape : KvShape) (l : Layer) (t : CacheTensor) : Nat :=
  if shape.mlaAttn = 0 then t.type.rowSize (l.nEmbdKGqa + l.nEmbdKS)
  else t.type.rowSize (shape.nLoraKv + shape.nRot)

/-! ### Slices -/

/-- A slice of a split tensor, and how many values of each row it has. -/
structure Slice where
  dev : Nat
  tensor : GgmlTensor
  ne : Nat

/-- The bytes that the slice has of each row of a tensor of the type. -/
def Slice.rowSize (slice : Slice) (type : TensorType) : Nat := type.rowSize slice.ne

/-- The slices on the devices that have one. -/
def devSlices (splits : List (Option GgmlTensor)) (ne : Nat → GgmlTensor → Nat) : List Slice :=
  splits.zipIdx.filterMap fun (split, dev) => split.map fun t => ⟨dev, t, ne dev t⟩

/-- `get_kv_cache_split_tensor`. -/
def getKvCacheSplitTensor (t : CacheTensor) (l : Layer) : Option Weight :=
  match l.wv with
  | none => l.wk
  | some wv =>
    let useVForK := l.attnKNorm.isSome && l.attnKNorm == l.wk.map (·.ne1)
    if 1 < t.ne1 ∧ ¬ useVForK then l.wk else some wv

/-- How a row of `ne` values lies over the slices. -/
structure SplitPlan where
  ne : Nat
  slices : List Slice

/-- The slices of a split tensor; `none` when they do not go with those of the weight. The
recurrent state has the widths of its own slices. -/
def splitPlan (l : Layer) (t : CacheTensor) (splits : List (Option GgmlTensor)) :
    Option SplitPlan :=
  if l.recurrent then some ⟨t.ne0, devSlices splits fun _ slice => slice.ne0⟩
  else
    match getKvCacheSplitTensor t l with
    | some ⟨ne1, some kvSplits⟩ =>
      let kvSplit (dev : Nat) := (kvSplits[dev]?).getD none
      if splits.zipIdx.all fun (split, dev) => split.isSome == (kvSplit dev).isSome then
        some ⟨ne1, devSlices splits fun dev _ => (kvSplit dev).getD 0⟩
      else none
    | _ => none

/-! ### Contents -/

inductive Part
  | k
  | v
  | s
  deriving DecidableEq

/-- A tensor of a layer, or its slice on a device. -/
structure TensorId where
  part : Part
  il : Nat
  dev : Option Nat := none
  deriving DecidableEq

/-- The bytes of every tensor and slice. -/
abbrev TensorMem := TensorId → Nat → UInt8

/-- A context with the tensors of `kv_self`. -/
structure StateCtx where
  ctx : KvContext
  shape : KvShape
  mem : TensorMem
  head_le : ctx.kvSelf.head ≤ ctx.kvSelf.size
  slots : ctx.kvSelf.qnextSlots = shape.stateSlots

end PxqLlama.Kv
