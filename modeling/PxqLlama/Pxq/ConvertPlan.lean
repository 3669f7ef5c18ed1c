import Mathlib.Algebra.Ring.Int.Defs
import PxqLlama.Pxq.HeadOrder

/-!
# `Pxq.ConvertPlan`: which tensors the converter serves as PXQ4

`build_plan` of `convert.py` goes through the tensors of a GGUF file, gives each its name in the
checkpoint, and plans its output: two tensors when the policy serves its module as PXQ4, one dense
tensor otherwise. `_check_plan` then refuses plans that cannot be loaded. `create_weights` of
`pxq4_linear.py` is what the loader requires of one layer on one rank.

What the plan is for: `Plan.Loadable` takes every served layer at every number of ranks, and asks
that the partitions are whole and that nothing `create_weights` requires fails.

Names are strings, and the digits of a block number are `0` to `9`. An exception is the `error` of
an `Except String`. Tensors of the vision tower, which are copied, are a parameter.
-/

namespace PxqLlama.Pxq

/-! ### Strings -/

def endswith (s t : String) : Bool := t.toList.isSuffixOf s.toList

/-- `s[: len(s) - n]`. -/
def chop (s : String) (n : Nat) : String := String.ofList (s.toList.take (s.toList.length - n))

/-- `_BLK.match`: the digits of a block number and the suffix. -/
def blkMatch (name : String) : Option (String × String) :=
  match name.toList with
  | 'b' :: 'l' :: 'k' :: '.' :: rest =>
    match rest.takeWhile Char.isDigit, rest.dropWhile Char.isDigit with
    | d :: ds, '.' :: body =>
      let suffix := body.takeWhile (· ≠ '\n')
      let behind := body.dropWhile (· ≠ '\n')
      if suffix ≠ [] ∧ (behind = [] ∨ behind = ['\n']) then
        some (String.ofList (d :: ds), String.ofList suffix)
      else none
    | _, _ => none
  | _ => none

/-- `int` of a block number. -/
def blkNumber (digits : String) : Nat :=
  digits.toList.foldl (fun n c => n * 10 + (c.toNat - '0'.toNat)) 0

/-! ### `namemap.py` -/

inductive Policy
  | p1
  | p2a
  | p2b
  | p2c
deriving DecidableEq, Repr

def Policy.name : Policy → String
  | p1 => "p1"
  | p2a => "p2a"
  | p2b => "p2b"
  | p2c => "p2c"

def PXQ4_MODULES_P1 : List String :=
  ["mlp.gate_up_proj", "mlp.down_proj", "self_attn.o_proj", "linear_attn.in_proj_qkvz"]

def PXQ4_MODULES_P2A : List String := PXQ4_MODULES_P1 ++ ["linear_attn.out_proj"]

def PXQ4_MODULES_P2B : List String := PXQ4_MODULES_P2A

def PXQ4_MODULES_P2C : List String := PXQ4_MODULES_P2B ++ ["self_attn.qkv_proj"]

/-- `POLICY_MODULES`. -/
def policyModules : Policy → List String
  | .p1 => PXQ4_MODULES_P1
  | .p2a => PXQ4_MODULES_P2A
  | .p2b => PXQ4_MODULES_P2B
  | .p2c => PXQ4_MODULES_P2C

def HF_LM : String := "model.language_model"

/-- `_GDN_MAP`. -/
def GDN_MAP : List (String × String) :=
  [("attn_qkv.weight", "linear_attn.in_proj_qkv.weight"),
   ("attn_gate.weight", "linear_attn.in_proj_z.weight"),
   ("ssm_out.weight", "linear_attn.out_proj.weight"),
   ("ssm_norm.weight", "linear_attn.norm.weight"),
   ("ssm_beta.weight", "linear_attn.in_proj_b.weight"),
   ("ssm_alpha.weight", "linear_attn.in_proj_a.weight"),
   ("ssm_a", "linear_attn.A_log"),
   ("ssm_dt.bias", "linear_attn.dt_bias"),
   ("ssm_conv1d.weight", "linear_attn.conv1d.weight")]

/-- `_ATTN_MAP`. -/
def ATTN_MAP : List (String × String) :=
  [("attn_q.weight", "self_attn.q_proj.weight"),
   ("attn_k.weight", "self_attn.k_proj.weight"),
   ("attn_v.weight", "self_attn.v_proj.weight"),
   ("attn_output.weight", "self_attn.o_proj.weight"),
   ("attn_q_norm.weight", "self_attn.q_norm.weight"),
   ("attn_k_norm.weight", "self_attn.k_norm.weight")]

/-- `_COMMON_MAP`. -/
def COMMON_MAP : List (String × String) :=
  [("attn_norm.weight", "input_layernorm.weight"),
   ("post_attention_norm.weight", "post_attention_layernorm.weight"),
   ("ffn_gate.weight", "mlp.gate_proj.weight"),
   ("ffn_up.weight", "mlp.up_proj.weight"),
   ("ffn_down.weight", "mlp.down_proj.weight")]

/-- `_GLOBAL_MAP`. -/
def GLOBAL_MAP : List (String × String) :=
  [("token_embd.weight", HF_LM ++ ".embed_tokens.weight"),
   ("output.weight", "lm_head.weight"),
   ("output_norm.weight", HF_LM ++ ".norm.weight")]

/-- `int(kv.get(key, kv.get(key', 0)))`. -/
def kvGet (kv : String → Option Int) (key key' : String) : Int :=
  (kv key).getD ((kv key').getD 0)

/-- `layer in mtp_block_range(kv)`. -/
def inMtpBlockRange (kv : String → Option Int) (layer : Nat) : Bool :=
  let n_block := kvGet kv "qwen35.block_count" "block_count"
  let n_mtp := kvGet kv "qwen35.nextn_predict_layers" "nextn_predict_layers"
  n_block - n_mtp ≤ layer && (layer : Int) < n_block

/-- `GGML_TO_HF`. -/
def GGML_TO_HF (name : String) (kv : String → Option Int) : Except String (Option String) :=
  match GLOBAL_MAP.lookup name with
  | some hf => .ok (some hf)
  | none =>
    match blkMatch name with
    | none => .ok none
    | some (digits, suffix) =>
      if inMtpBlockRange kv (blkNumber digits) then .ok none
      else
        match (COMMON_MAP ++ ATTN_MAP ++ GDN_MAP).lookup suffix with
        | some hf => .ok (some (HF_LM ++ ".layers." ++ toString (blkNumber digits) ++ "." ++ hf))
        | none => .error ("namemap: no HF name for ggml tensor '" ++ name ++ "' (suffix '" ++ suffix
            ++ "'). Refusing to guess — an unmapped tensor is a silently incomplete model.")

/-- `ggml_suffix`. -/
def ggmlSuffix (name : String) : String := ((blkMatch name).map Prod.snd).getD name

/-- `_FUSE`. -/
def FUSE : List (String × String) :=
  [("mlp.gate_proj", "mlp.gate_up_proj"),
   ("mlp.up_proj", "mlp.gate_up_proj"),
   ("linear_attn.in_proj_qkv", "linear_attn.in_proj_qkvz"),
   ("linear_attn.in_proj_z", "linear_attn.in_proj_qkvz"),
   ("linear_attn.in_proj_b", "linear_attn.in_proj_ba"),
   ("linear_attn.in_proj_a", "linear_attn.in_proj_ba"),
   ("self_attn.q_proj", "self_attn.qkv_proj"),
   ("self_attn.k_proj", "self_attn.qkv_proj"),
   ("self_attn.v_proj", "self_attn.qkv_proj")]

/-- `_PARAM_LEAVES`. -/
def PARAM_LEAVES : List String := ["weight", "bias", "A_log", "dt_bias", "pxq4_slabs", "pxq4_anchor"]

/-- The first loop of `HF_MODULE_OF`. -/
def dropLeaf (hf_name : String) : String :=
  match PARAM_LEAVES.find? fun leaf => endswith hf_name ("." ++ leaf) with
  | some leaf => chop hf_name (leaf.length + 1)
  | none => hf_name

/-- The second loop of `HF_MODULE_OF`. -/
def fuse (mod : String) : String :=
  match FUSE.find? fun f => mod == f.1 || endswith mod ("." ++ f.1) with
  | some f => chop mod f.1.length ++ f.2
  | none => mod

/-- `HF_MODULE_OF`. -/
def HF_MODULE_OF (hf_name : String) : String := fuse (dropLeaf hf_name)

/-- The module is one of these, by the end of its name. -/
def isModule (modules : List String) (module : String) : Bool :=
  modules.any fun p => module == p || endswith module ("." ++ p)

/-- `is_pxq4_module`. -/
def isPxq4Module (module : String) (policy : Policy) : Bool := isModule (policyModules policy) module

/-- The keys of `VALUE_TRANSFORMS`, with the descriptions. -/
def VALUE_TRANSFORMS : List (String × String) :=
  [("ssm_a", "A_log = log(-A): ggml stores A, HF stores its log")]

def GDN_NO_PERM : List String := ["ssm_norm.weight"]

/-- `qkv_rows`. -/
def GdnGeometry.qkv_rows (geom : GdnGeometry) : Int := 2 * geom.key_dim + geom.value_dim

/-- One entry of `want` in `check_against_tensors`. -/
def checkSlowAxis (geom : GdnGeometry) (shapes : List (String × List Nat)) (suf : String) (n : Int) :
    Except String Unit :=
  match shapes.lookup suf with
  | none => .ok ()
  | some ne =>
    match ne.getLast? with
    | none => .error "tuple index out of range"
    | some last =>
      if (last : Int) ≠ n then
        .error ("GDN geometry from the GGUF KVs (n_k_heads=" ++ toString geom.n_k_heads
          ++ ", n_v_heads=" ++ toString geom.n_v_heads ++ ", head_dim=" ++ toString geom.head_dim
          ++ ") says " ++ suf ++ " should have " ++ toString n
          ++ " on its slow axis, but the file says " ++ toString last
          ++ ". Refusing to permute head blocks on geometry we cannot confirm.")
      else .ok ()

/-- `check_against_tensors`. -/
def checkAgainstTensors (geom : GdnGeometry) (shapes : List (String × List Nat)) :
    Except String Unit := do
  checkSlowAxis geom shapes "attn_gate.weight" geom.value_dim
  checkSlowAxis geom shapes "attn_qkv.weight" geom.qkv_rows
  checkSlowAxis geom shapes "ssm_conv1d.weight" geom.qkv_rows
  match shapes.lookup "ssm_a" with
  | none => .ok ()
  | some ne =>
    match ne.head? with
    | none => .error "tuple index out of range"
    | some n =>
      if (n : Int) ≠ geom.n_v_heads then
        .error ("ssm_a is ne=(" ++ ", ".intercalate (ne.map toString) ++ "), expected ("
          ++ toString geom.n_v_heads ++ ",)")
      else .ok ()

/-! ### `layout.py` -/

/-- `assert_shardable`. -/
def assertShardable (N K : Nat) (tp_sizes : List Nat) (row_parallel : Bool) (name : String) :
    Except String Unit :=
  tp_sizes.forM fun tp =>
    if N % tp = 0 ∧ N / tp % PANEL_ROWS ≠ 0 then
      .error (name ++ ": column shard at TP=" ++ toString tp ++ " gives " ++ toString (N / tp)
        ++ " rows/rank, not a multiple of " ++ toString PANEL_ROWS)
    else if row_parallel = true ∧ K % tp ≠ 0 then
      .error (name ++ ": K=" ++ toString K ++ " not divisible by TP=" ++ toString tp)
    else if row_parallel = true ∧ K / tp % SLAB_COLS ≠ 0 then
      .error (name ++ ": row shard at TP=" ++ toString tp ++ " gives K=" ++ toString (K / tp)
        ++ "/rank, not a multiple of " ++ toString SLAB_COLS)
    else .ok ()

/-! ### `convert.py` -/

/-- What the plan reads of a `TensorInfo`. -/
structure TensorInfo where
  dims : List Nat
  type_id : Nat
  type : String

def GGML_PXQ4 : Nat := 252

/-- `ne0`. -/
def TensorInfo.ne0 (ti : TensorInfo) : Except String Nat :=
  match ti.dims.head? with
  | some d => .ok d
  | none => .error "tuple index out of range"

/-- `ne1`. -/
def TensorInfo.ne1 (ti : TensorInfo) : Nat := ti.dims[1]?.getD 1

/-- `logical_shape`. -/
def TensorInfo.logical_shape (ti : TensorInfo) : List Nat := ti.dims.reverse

/-- What the plan reads of a GGUF file. -/
structure GGUFFile where
  kv : String → Option Int
  order : List String
  tensors : String → TensorInfo

inductive EmitKind
  | pxq4
  | dense
  | copy
deriving DecidableEq, Repr

/-- A planned output tensor. `perm`: its note on a reordering of the heads is not empty. -/
structure Emit where
  name : String
  kind : EmitKind
  shape : List Nat
  src : String
  perm : Bool
deriving DecidableEq, Repr

/-- A plan. `module_types` has every type that was added to a module. -/
structure Plan where
  emits : List Emit
  module_types : List (String × EmitKind)
deriving DecidableEq, Repr

/-- `_gdn_shapes`. In a `dict` the last entry of a key counts. -/
def gdnShapes (gg : GGUFFile) : List (String × List Nat) :=
  match gg.order.findSome? fun name =>
      match blkMatch name with
      | some (digits, suffix) => if suffix = "attn_gate.weight" then some digits else none
      | none => none with
  | none => []
  | some digits =>
    ((gg.order.filter fun n => ("blk." ++ digits ++ ".").toList.isPrefixOf n.toList).map fun n =>
      (ggmlSuffix n, (gg.tensors n).dims)).reverse

/-- `_pxq4_emit_names`. -/
def pxq4EmitNames (hf_weight_name : String) : String × String :=
  let stem := if endswith hf_weight_name ".weight" then chop hf_weight_name 7 else hf_weight_name
  (stem ++ ".pxq4_slabs", stem ++ ".pxq4_anchor")

/-- What the loop of `build_plan` adds for a tensor that is served as PXQ4. -/
def planPxq4 (policy : Policy) (have_encoder : Bool) (name hf module : String) (ti : TensorInfo)
    (perm : Bool) : Except String Plan := do
  let N := ti.ne1
  let K ← ti.ne0
  assertGeometry N K
  if let some text := VALUE_TRANSFORMS.lookup (ggmlSuffix name) then
    .error (name ++ " needs the value transform '" ++ text ++ "', which cannot be expressed "
      ++ "as a byte move — it must not be served as PXQ4.")
  else if ti.type_id ≠ GGML_PXQ4 ∧ have_encoder = false then
    .error ("policy " ++ policy.name ++ " requires re-encoding " ++ name ++ " (" ++ ti.type
      ++ " -> pxq4) but no --encoder was given. Refusing to silently fall back to fp16: that "
      ++ "would produce a checkpoint that loads, runs, and is quietly slower "
      ++ "than the policy claims.")
  else
    let P := N / 64
    let S := K / 32
    return {
      emits := [⟨(pxq4EmitNames hf).1, .pxq4, [P, S, 1088], name, perm⟩,
        ⟨(pxq4EmitNames hf).2, .pxq4, [P, 64], name, perm⟩]
      module_types := [(module, .pxq4)] }

/-- What it adds for any other tensor. -/
def planDense (name hf module : String) (ti : TensorInfo) (perm : Bool) : Except String Plan :=
  let shape := if endswith hf "conv1d.weight" then ti.ne0.map fun ne0 => [ti.ne1, 1, ne0]
    else .ok ti.logical_shape
  let noted := perm || (VALUE_TRANSFORMS.lookup (ggmlSuffix name)).isSome
  shape.map fun shape =>
    { emits := [⟨hf, .dense, shape, name, noted⟩], module_types := [(module, .dense)] }

/-- One round of the loop of `build_plan`. -/
def planTensor (gg : GGUFFile) (geom : GdnGeometry) (policy : Policy) (have_encoder : Bool)
    (limit_layers : Nat) (plan : Plan) (name : String) : Except String Plan :=
  let skip := limit_layers ≠ 0 ∧ ∃ m ∈ blkMatch name, limit_layers ≤ blkNumber m.1
  if skip then .ok plan
  else do
    let ti := gg.tensors name
    match ← GGML_TO_HF name gg.kv with
    | none => .ok plan
    | some hf =>
      let module := HF_MODULE_OF hf
      let perm ← gdnPermFor name (ggmlSuffix name) ti.logical_shape geom
      let planned := if isPxq4Module module policy then
          planPxq4 policy have_encoder name hf module ti perm.isSome
        else planDense name hf module ti perm.isSome
      let added ← planned
      return ⟨plan.emits ++ added.emits, plan.module_types ++ added.module_types⟩

/-- A slab tensor: what the shard arithmetic of `_check_plan` is about. -/
def Emit.isSlabs (e : Emit) : Bool := e.kind = .pxq4 && endswith e.name ".pxq4_slabs"

/-- `row_parallel` of `_check_plan`. -/
def rowParallelName (name : String) : Bool :=
  ["down_proj", "o_proj", "out_proj"].any fun s => endswith name (s ++ ".pxq4_slabs")

/-- `(5)` of `_check_plan`, for one output. -/
def checkShards (e : Emit) : Except String Unit :=
  if e.isSlabs then
    match e.shape with
    | [P, S, _] => assertShardable (P * 64) (S * 32) [1, 2, 4] (rowParallelName e.name) e.name
    | _ => .error "not enough values to unpack (expected 3)"
  else .ok ()

/-- The modules with more than one type. -/
def Plan.mixed (plan : Plan) : List String :=
  (plan.module_types.map Prod.fst).eraseDups.filter fun m =>
    decide ((m, EmitKind.pxq4) ∈ plan.module_types) && decide ((m, EmitKind.dense) ∈ plan.module_types)

/-- `(7)` of `_check_plan`: the outputs that miss a reordering, and those that nothing is said
about. -/
def Plan.unpermuted (plan : Plan) : List String :=
  (plan.emits.filter fun e => e.kind ≠ .copy && (GDN_MAP.lookup (ggmlSuffix e.src)).isSome
    && (GDN_PERM_SPEC.lookup (ggmlSuffix e.src)).isSome && !e.perm).map Emit.name

def Plan.undeclared (plan : Plan) : List String :=
  (plan.emits.filter fun e => e.kind ≠ .copy && (GDN_MAP.lookup (ggmlSuffix e.src)).isSome
    && (GDN_PERM_SPEC.lookup (ggmlSuffix e.src)).isNone
    && !(GDN_NO_PERM.contains (ggmlSuffix e.src))).map fun e =>
      e.name ++ " (ggml " ++ ggmlSuffix e.src ++ ")"

/-- A list of strings as Python prints it. -/
def listText (l : List String) : String :=
  "[" ++ ", ".intercalate (l.map fun s => "'" ++ s ++ "'") ++ "]"

/-- `_check_plan`. -/
def checkPlan (plan : Plan) (policy : Policy) (geom : GdnGeometry) : Except String Unit := do
  if plan.mixed ≠ [] then
    .error ("policy " ++ policy.name ++ " violates the §3.1 uniformity invariant — these vLLM modules "
      ++ "would be part-PXQ4 and part-fp16, which needs a custom per-shard weight loader "
      ++ "and is exactly the silent mis-shard we refuse to write: \x7b"
      ++ ", ".intercalate (plan.mixed.map fun m => "'" ++ m ++ "': ['dense', 'pxq4']") ++ "\x7d")
  plan.emits.forM checkShards
  let names := plan.emits.map Emit.name
  if ¬ names.Nodup then
    .error ("duplicate output tensor names: "
      ++ listText ((names.filter fun n => 1 < names.count n).eraseDups.mergeSort))
  if plan.unpermuted ≠ [] then
    .error (toString plan.unpermuted.length
      ++ " GDN tensors would be emitted WITHOUT the v-head reorder, e.g. "
      ++ listText (plan.unpermuted.take 4) ++ ". ggml orders the " ++ toString geom.n_v_heads
      ++ "-way value-head "
      ++ "axis repeat-major and HF orders it k-head-major (namemap module docstring); "
      ++ "shipping them unpermuted produces a model that loads and generates fluent "
      ++ "garbage. This is a converter bug, not a policy choice.")
  if plan.undeclared ≠ [] then
    .error ("GDN tensors with no entry in namemap.GDN_PERM_SPEC and no entry in GDN_NO_PERM: "
      ++ listText (plan.undeclared.take 8)
      ++ ". Decide explicitly whether each has a v-head axis — defaulting "
      ++ "to 'no permutation' is exactly the bug this gate exists for.")

/-- `build_plan`: the plan and the geometry it was made with. `visual` has the tensors of the
vision tower, when they are copied. -/
def buildPlan (gg : GGUFFile) (policy : Policy) (visual : List (String × List Nat))
    (have_encoder : Bool) (limit_layers : Nat) : Except String (Plan × GdnGeometry) := do
  let geom ← gdnGeometry gg.kv
  checkAgainstTensors geom (gdnShapes gg)
  let plan ← gg.order.foldlM (planTensor gg geom policy have_encoder limit_layers) ⟨[], []⟩
  let plan : Plan :=
    { plan with emits := plan.emits ++ visual.map fun v => ⟨v.1, .copy, v.2, "<ref-hf>", false⟩ }
  checkPlan plan policy geom
  return (plan, geom)

/-! ### `pxq4_linear.py` -/

/-- What `create_weights` reads of its arguments. `fp16`: `params_dtype` is `torch.float16`;
`weight_loader` is the `__name__` of the loader, when one is passed. -/
structure CreateArgs where
  pfx : String
  input_size_per_partition : Int
  output_partition_sizes : List Int
  input_size : Int
  output_size : Int
  tp_size : Int
  fp16 : Bool
  params_dtype : String
  weight_loader : Option String

/-- `_require`. -/
def require (cond : Bool) (msg : String) : Except String Unit := if cond then .ok () else .error msg

/-- The loop of `create_weights` over the partitions. -/
def requirePartitions (pfx : String) : List Int → Nat → Except String Unit
  | [], _ => .ok ()
  | o :: sizes, i => do
    require (o % PANEL_ROWS = 0)
      ("pxq4 [" ++ pfx ++ "]: output_partition_sizes[" ++ toString i ++ "]=" ++ toString o
        ++ " is not a multiple of " ++ toString PANEL_ROWS
        ++ ". This shard offset would be floor-divided by "
        ++ "packed_factor and SILENTLY truncated (parameter.py:605-616). "
        ++ "Known trigger: the GDN in_proj_ba (48 rows) folded into "
        ++ "in_proj_qkvz -- the quant config must list "
        ++ "'linear_attn.in_proj_a'/'linear_attn.in_proj_b' in `ignore` so "
        ++ "qwen3_5.py:127-157 splits them out.")
    requirePartitions pfx sizes (i + 1)

/-- `create_weights`, as far as it requires something. -/
def createWeights (args : CreateArgs) : Except String Unit := do
  let K := args.input_size_per_partition
  let N := args.output_partition_sizes.sum
  let head := "pxq4 [" ++ args.pfx ++ "]: "
  require args.fp16
    (head ++ "requires fp16 activations on sm_70, got " ++ args.params_dtype)
  require (K % SLAB_COLS = 0)
    (head ++ "K=" ++ toString K ++ " is not a multiple of " ++ toString SLAB_COLS ++ ". A K-split "
      ++ "must fall on a slab boundary; a partial slab cannot be addressed.")
  require (N % PANEL_ROWS = 0)
    (head ++ "N=" ++ toString N ++ " is not a multiple of " ++ toString PANEL_ROWS
      ++ ". A row-split "
      ++ "must fall on a panel boundary; panels carry their own anchor header.")
  requirePartitions args.pfx args.output_partition_sizes 0
  require (args.output_size % PANEL_ROWS = 0)
    (head ++ "unsharded output_size=" ++ toString args.output_size ++ " is not a multiple "
      ++ "of " ++ toString PANEL_ROWS
      ++ "; the checkpoint tensor is not a whole number of panels.")
  require (args.input_size % SLAB_COLS = 0)
    (head ++ "unsharded input_size=" ++ toString args.input_size ++ " is not a multiple "
      ++ "of " ++ toString SLAB_COLS ++ ".")
  require (args.input_size = K || args.input_size = K * args.tp_size)
    (head ++ "input_size=" ++ toString args.input_size ++ " is neither K=" ++ toString K ++ " "
      ++ "(column-parallel) nor K*tp=" ++ toString (K * args.tp_size)
      ++ " (row-parallel); the layer's "
      ++ "partitioning is not one this method understands.")
  match args.weight_loader with
  | none => .error (head ++ "no weight_loader passed")
  | some wl_name =>
    require (wl_name = "weight_loader_v2" || args.tp_size = 1)
      (head ++ "got weight loader '" ++ wl_name ++ "' (v1) on a layer with "
        ++ "tp_size=" ++ toString args.tp_size
        ++ ". The v1 loader cannot shard the panel layout. "
        ++ "PXQ4LinearMethod must be in WEIGHT_LOADER_V2_SUPPORTED "
        ++ "(linear.py:193-215) -- check that this module was imported "
        ++ "before the model was built.")

/-! ### What the plan is for -/

/-- The slab tensors of a plan. -/
def Plan.slabs (plan : Plan) : List Emit := plan.emits.filter Emit.isSlabs

/-- `N` and `K` of a slab tensor. -/
def Emit.rows (e : Emit) : Int := (e.shape.headD 0 * 64 : Nat)

def Emit.cols (e : Emit) : Int := (e.shape.getD 1 0 * 32 : Nat)

def Emit.module (e : Emit) : String := HF_MODULE_OF e.name

/-- The modules whose contraction dimension is split. -/
def ROW_PARALLEL_MODULES : List String :=
  ["mlp.down_proj", "self_attn.o_proj", "linear_attn.out_proj"]

/-- The fused GDN input projection. -/
def GDN_INPUT_MODULES : List String := ["linear_attn.in_proj_qkvz"]

section

variable (plan : Plan) (geom : GdnGeometry)

/-- The sizes of the partitions of a module, over all ranks. -/
def Plan.outputSizes (module : String) : List Int :=
  if isModule GDN_INPUT_MODULES module then
    [geom.key_dim, geom.key_dim, geom.value_dim, geom.value_dim]
  else (plan.slabs.filter fun e => e.module == module).map Emit.rows

/-- The arguments for the layer of a slab tensor on one of `tp` ranks. -/
def Plan.layer (e : Emit) (tp : Int) : CreateArgs :=
  let sizes := plan.outputSizes geom e.module
  let split := isModule ROW_PARALLEL_MODULES e.module
  { pfx := e.module
    input_size_per_partition := if split then e.cols / tp else e.cols
    output_partition_sizes := if split then sizes else sizes.map (· / tp)
    input_size := e.cols
    output_size := sizes.sum
    tp_size := tp
    fp16 := true
    params_dtype := "torch.float16"
    weight_loader := some "weight_loader_v2" }

/-- What is split can be split: the contraction dimension, or else the partitions. -/
def Plan.Divides (e : Emit) (tp : Int) : Prop :=
  if isModule ROW_PARALLEL_MODULES e.module then tp ∣ e.cols
  else ∀ size ∈ plan.outputSizes geom e.module, tp ∣ size

/-- Where partitions begin, a panel begins: `offset // packed_factor` loses nothing. -/
def WholeOffsets (sizes : List Int) : Prop := ∀ i, (PANEL_ROWS : Int) ∣ (sizes.take i).sum

/-- Every served layer can be loaded on one, two and four ranks. -/
def Plan.Loadable : Prop :=
  ∀ e ∈ plan.slabs, ∀ tp ∈ [(1 : Int), 2, 4],
    plan.Divides geom e tp ∧ createWeights (plan.layer geom e tp) = .ok () ∧
      WholeOffsets (plan.layer geom e tp).output_partition_sizes ∧
      WholeOffsets (plan.outputSizes geom e.module)

/-- Where the GDN input projection is served, four ranks get whole panels of the key rows. Of the
value rows they do too, when the tensor is a matrix. -/
def Plan.Aligned (gg : GGUFFile) : Prop :=
  ∀ e ∈ plan.slabs, isModule GDN_INPUT_MODULES e.module = true →
    256 ∣ geom.key_dim ∧ ((gg.tensors e.src).dims.length = 2 ∨ 256 ∣ geom.value_dim)

end

end PxqLlama.Pxq
