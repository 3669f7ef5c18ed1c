import PxqLlama.Pxq.ConvertPlan
import PxqLlama.Lib.Attempt

/-!
# `Proofs.Pxq.ConvertPlan`: which plans can be loaded

`SlabOf` says what a slab tensor of a plan is made from; the loop of `build_plan` keeps it
(`planTensor_slabs`), and `_check_plan` then has the rows of every slab tensor a multiple of 256,
and the columns of a row-parallel one a multiple of 128 (`SlabOf.shards`).

For the fused GDN input projection that is not enough. Its partitions are the key rows, the key
rows, the value rows and the value rows, but `attn_qkv` is checked by the sum of three of them. Only
two tensors lead to that module (`SlabOf.gdn_source`), their rows are the sum or the value rows
(`SlabOf.gdn_rows`), so what is missing is a condition on the key rows (`buildPlan_loadable_iff`).

Ends of names are compared by `suffix_cases`: of two ends of one name one is the end of the other.
-/

namespace PxqLlama.Pxq

/-! ### Names -/

theorem endswith_iff {s t : String} : endswith s t = true ↔ t.toList <:+ s.toList :=
  List.isSuffixOf_iff_suffix

/-- Two ends of one name: one is the end of the other. -/
theorem suffix_cases {s t l : List Char} (hs : s <:+ l) (ht : t <:+ l) : s <:+ t ∨ t <:+ s :=
  List.suffix_or_suffix_of_suffix hs ht

theorem isModule_suffix {modules : List String} {m : String} (h : isModule modules m = true) :
    ∃ p ∈ modules, p.toList <:+ m.toList := by
  obtain ⟨p, hp, hm⟩ := List.any_eq_true.mp h
  refine ⟨p, hp, ?_⟩
  rw [Bool.or_eq_true, beq_iff_eq, endswith_iff, String.toList_append] at hm
  rcases hm with rfl | hm
  · exact List.suffix_refl _
  · exact (List.suffix_append _ _).trans hm

/-- The name of a slab tensor without its last component. -/
theorem dropLeaf_slabs (stem : String) : dropLeaf (stem ++ ".pxq4_slabs") = stem := by
  have hfind : PARAM_LEAVES.find? (fun leaf => endswith (stem ++ ".pxq4_slabs") ("." ++ leaf)) =
      some "pxq4_slabs" := by
    simp [PARAM_LEAVES, endswith, List.isSuffixOf, List.isPrefixOf]
  have hlength : "pxq4_slabs".length = 10 := by decide
  rw [dropLeaf, hfind]
  simp [chop, hlength]

/-- What a fused name ends with: the name was not fused, or it ended with a part. -/
theorem fuse_cases (mod : String) :
    fuse mod = mod ∨ ∃ f ∈ FUSE, f.1.toList <:+ mod.toList ∧ f.2.toList <:+ (fuse mod).toList := by
  rw [fuse]
  cases hfind : FUSE.find? fun f => mod == f.1 || endswith mod ("." ++ f.1) with
  | none => exact Or.inl rfl
  | some f =>
    refine Or.inr ⟨f, List.mem_of_find?_eq_some hfind, ?_, ?_⟩
    · have hend := List.find?_some hfind
      simp only [Bool.or_eq_true, beq_iff_eq, endswith_iff, String.toList_append] at hend
      rcases hend with rfl | hend
      · exact List.suffix_refl _
      · exact (List.suffix_append _ _).trans hend
    · simp

/-- A module whose contraction dimension is split has its name from a row-parallel tensor. -/
theorem rowParallelName_of_module {stem : String}
    (h : isModule ROW_PARALLEL_MODULES (fuse stem) = true) :
    rowParallelName (stem ++ ".pxq4_slabs") = true := by
  obtain ⟨p, hp, hend⟩ := isModule_suffix h
  rcases fuse_cases stem with heq | ⟨f, hf, -, hfuse⟩
  · rw [heq] at hend
    have hshort : ∀ p ∈ ROW_PARALLEL_MODULES, ∃ s ∈ ["down_proj", "o_proj", "out_proj"],
        s.toList <:+ p.toList := by decide
    obtain ⟨s, hs, hsp⟩ := hshort p hp
    refine List.any_eq_true.mpr ⟨s, hs, ?_⟩
    rw [endswith_iff, String.toList_append, String.toList_append]
    obtain ⟨front, hfront⟩ := hsp.trans hend
    exact ⟨front, by rw [← hfront, List.append_assoc]⟩
  · -- no fused name is one of these
    have hnone : ∀ p ∈ ROW_PARALLEL_MODULES, ∀ f ∈ FUSE,
        ¬ (p.toList <:+ f.2.toList ∨ f.2.toList <:+ p.toList) := by decide
    exact absurd (suffix_cases hend hfuse) (hnone p hp f hf)

/-! ### What the loader requires -/

theorem require_eq_ok {cond : Bool} {msg : String} : require cond msg = .ok () ↔ cond = true := by
  cases cond <;> simp [require]

variable {sizes : List Int}

theorem requirePartitions_eq_ok {pfx : String} {i : Nat} :
    requirePartitions pfx sizes i = .ok () ↔ ∀ o ∈ sizes, (PANEL_ROWS : Int) ∣ o := by
  induction sizes generalizing i with
  | nil => simp [requirePartitions]
  | cons o sizes ih =>
    rw [requirePartitions, Attempt.check_bind, require_eq_ok, ih, List.forall_mem_cons,
      decide_eq_true_iff, Int.dvd_iff_emod_eq_zero]

/-- Everything `create_weights` requires. -/
theorem createWeights_eq_ok {args : CreateArgs} :
    createWeights args = .ok () ↔ args.fp16 = true ∧
      (SLAB_COLS : Int) ∣ args.input_size_per_partition ∧
      (PANEL_ROWS : Int) ∣ args.output_partition_sizes.sum ∧
      (∀ o ∈ args.output_partition_sizes, (PANEL_ROWS : Int) ∣ o) ∧
      (PANEL_ROWS : Int) ∣ args.output_size ∧ (SLAB_COLS : Int) ∣ args.input_size ∧
      (args.input_size = args.input_size_per_partition ∨
        args.input_size = args.input_size_per_partition * args.tp_size) ∧
      ∃ wl_name, args.weight_loader = some wl_name ∧
        (wl_name = "weight_loader_v2" ∨ args.tp_size = 1) := by
  simp only [createWeights, Attempt.check_bind, require_eq_ok, requirePartitions_eq_ok,
    decide_eq_true_iff, Bool.or_eq_true, Int.dvd_iff_emod_eq_zero]
  cases args.weight_loader with
  | none => simp
  | some wl_name => simp [require_eq_ok]

/-! ### The tensors of a plan -/

/-- What a slab tensor of a plan is made from. -/
structure SlabOf (gg : GGUFFile) (geom : GdnGeometry) (e : Emit) (hf : String) (N K : Nat) : Prop where
  toHf : GGML_TO_HF e.src gg.kv = .ok (some hf)
  name : e.name = (pxq4EmitNames hf).1
  shape : e.shape = [N / 64, K / 32, 1088]
  ne1 : (gg.tensors e.src).ne1 = N
  ne0 : (gg.tensors e.src).ne0 = .ok K
  geometry : assertGeometry N K = .ok ()
  perm : ∃ perm, gdnPermFor e.src (ggmlSuffix e.src) (gg.tensors e.src).logical_shape geom = .ok perm

variable {e : Emit} {hf : String} {geom : GdnGeometry} {gg : GGUFFile} {have_encoder : Bool}
  {perm : Option (Nat × List Int)} {policy : Policy}

theorem isSlabs_anchor (h : e.name = (pxq4EmitNames hf).2) : e.isSlabs = false := by
  rw [Emit.isSlabs, h]
  simp [pxq4EmitNames, endswith, List.isSuffixOf, List.isPrefixOf]

/-- The slabs that one tensor is planned as. -/
theorem planPxq4_slabs {name module : String} {added : Plan}
    (hname : GGML_TO_HF name gg.kv = .ok (some hf))
    (hperm : gdnPermFor name (ggmlSuffix name) (gg.tensors name).logical_shape geom = .ok perm)
    (h : planPxq4 policy have_encoder name hf module (gg.tensors name) perm.isSome = .ok added) :
    ∀ e ∈ added.emits, e.isSlabs = true → ∃ hf N K, SlabOf gg geom e hf N K := by
  rw [planPxq4] at h
  obtain ⟨K, hK, h⟩ := Attempt.bind_eq_ok.mp h
  obtain ⟨hgeometry, h⟩ := Attempt.check_bind.mp h
  intro e he hslabs
  split at h
  · cases h
  · split at h
    · cases h
    · cases h
      rcases List.mem_cons.mp he with rfl | he
      · exact ⟨hf, (gg.tensors name).ne1, K,
          ⟨hname, rfl, rfl, rfl, hK, hgeometry, ⟨perm, hperm⟩⟩⟩
      · rw [List.mem_singleton] at he
        rw [isSlabs_anchor (congrArg Emit.name he)] at hslabs
        cases hslabs

theorem planDense_slabs {name module : String} {ti : TensorInfo} {perm : Bool} {added : Plan}
    (h : planDense name hf module ti perm = .ok added) : ∀ e ∈ added.emits, e.isSlabs = false := by
  obtain ⟨shape, -, rfl⟩ := Attempt.map_eq_ok.mp h
  simp [Emit.isSlabs]

/-- Each slab that planning a tensor adds comes from this tensor and its reorder. -/
theorem planTensor_slabs {limit_layers : Nat} (plan : Plan) (name : String) (plan' : Plan)
    (hplan : ∀ e ∈ plan.emits, e.isSlabs = true → ∃ hf N K, SlabOf gg geom e hf N K)
    (h : planTensor gg geom policy have_encoder limit_layers plan name = .ok plan') :
    ∀ e ∈ plan'.emits, e.isSlabs = true → ∃ hf N K, SlabOf gg geom e hf N K := by
  rw [planTensor] at h
  split at h
  · -- a layer behind the limit
    cases h
    exact hplan
  · obtain ⟨hf?, hname, h⟩ := Attempt.bind_eq_ok.mp h
    cases hf? with
    | none =>
      cases h
      exact hplan
    | some hf =>
      obtain ⟨perm, hperm, h⟩ := Attempt.bind_eq_ok.mp h
      obtain ⟨added, hadded, h⟩ := Attempt.bind_eq_ok.mp h
      cases h
      intro e he hslabs
      rcases List.mem_append.mp he with he | he
      · exact hplan e he hslabs
      · split at hadded
        · exact planPxq4_slabs hname hperm hadded e he hslabs
        · rw [planDense_slabs hadded e he] at hslabs
          cases hslabs

theorem checkPlan_shards {plan : Plan} (h : checkPlan plan policy geom = .ok ()) :
    ∀ e ∈ plan.emits, checkShards e = .ok () := by
  simp only [checkPlan] at h
  split at h
  · cases h
  · exact Attempt.forM_eq_ok.mp (Attempt.check_bind.mp h).1

/-- What is known of the slab tensors of an accepted plan. -/
theorem buildPlan_slabs {visual : List (String × List Nat)} {limit_layers : Nat} {plan : Plan}
    (h : buildPlan gg policy visual have_encoder limit_layers = .ok (plan, geom)) :
    ∀ e ∈ plan.slabs, (∃ hf N K, SlabOf gg geom e hf N K) ∧ checkShards e = .ok () := by
  obtain ⟨geom', -, h⟩ := Attempt.bind_eq_ok.mp h
  obtain ⟨-, h⟩ := Attempt.check_bind.mp h
  obtain ⟨plan', hloop, h⟩ := Attempt.bind_eq_ok.mp h
  obtain ⟨hcheck, h⟩ := Attempt.check_bind.mp h
  cases h
  intro e he
  obtain ⟨hmem, hslabs⟩ := List.mem_filter.mp he
  refine ⟨?_, checkPlan_shards hcheck e hmem⟩
  rcases List.mem_append.mp hmem with hmem | hmem
  · exact Attempt.foldlM_keeps planTensor_slabs (by simp) hloop e hmem hslabs
  · -- a copied tensor
    obtain ⟨v, -, rfl⟩ := List.mem_map.mp hmem
    simp [Emit.isSlabs] at hslabs

/-! ### Shards -/

/-- The checks on the geometry, read back. -/
theorem assertGeometry_eq_ok {N K : Int} (h : assertGeometry N K = .ok ()) :
    0 < N ∧ (PANEL_ROWS : Int) ∣ N ∧ (SLAB_COLS : Int) ∣ K := by
  simp only [assertGeometry] at h
  split at h
  · cases h
  · rename_i hpos
    split at h
    · cases h
    · rename_i hN
      split at h
      · cases h
      · rename_i hK
        rw [Int.dvd_iff_emod_eq_zero, Int.dvd_iff_emod_eq_zero]
        exact ⟨by omega, not_not.mp hN, not_not.mp hK⟩

/-- A split into four is the strictest. -/
theorem assertShardable_eq_ok {P S : Nat} {row_parallel : Bool} {name : String}
    (h : assertShardable (P * 64) (S * 32) [1, 2, 4] row_parallel name = .ok ()) :
    4 ∣ P ∧ (row_parallel = true → 4 ∣ S) := by
  have hfour := Attempt.forM_eq_ok.mp h 4 (by simp)
  split at hfour
  · cases hfour
  · rename_i hrows
    split at hfour
    · cases hfour
    · split at hfour
      · cases hfour
      · rename_i hK hslabs
        simp only [PANEL_ROWS, SLAB_COLS] at hrows hslabs
        refine ⟨by omega, fun hrow => ?_⟩
        simp only [hrow, true_and] at hK hslabs
        omega

section

variable {gg : GGUFFile} {geom : GdnGeometry} {e : Emit} {hf : String} {N K : Nat}
  (hslab : SlabOf gg geom e hf N K)

include hslab

theorem SlabOf.rows_eq : e.rows = N := by
  have hN := (assertGeometry_eq_ok hslab.geometry).2.1
  have hdvd : 64 ∣ N := by exact_mod_cast hN
  rw [Emit.rows, hslab.shape]
  show ((N / 64 * 64 : Nat) : Int) = N
  rw [Nat.div_mul_cancel hdvd]

theorem SlabOf.cols_eq : e.cols = K := by
  have hK := (assertGeometry_eq_ok hslab.geometry).2.2
  have hdvd : 32 ∣ K := by exact_mod_cast hK
  rw [Emit.cols, hslab.shape]
  show ((K / 32 * 32 : Nat) : Int) = K
  rw [Nat.div_mul_cancel hdvd]

theorem SlabOf.name_eq : ∃ stem, e.name = stem ++ ".pxq4_slabs" ∧ e.module = fuse stem := by
  refine ⟨_, hslab.name, ?_⟩
  rw [Emit.module, hslab.name, HF_MODULE_OF]
  exact congrArg fuse (dropLeaf_slabs _)

/-- What `_check_plan` says of a slab tensor. -/
theorem SlabOf.shards (hslabs : e.isSlabs = true) (hcheck : checkShards e = .ok ()) :
    256 ∣ e.rows ∧ (isModule ROW_PARALLEL_MODULES e.module = true → 128 ∣ e.cols) := by
  rw [checkShards, if_pos hslabs, hslab.shape] at hcheck
  obtain ⟨hP, hS⟩ := assertShardable_eq_ok hcheck
  obtain ⟨stem, hname, hmodule⟩ := hslab.name_eq
  rw [Emit.rows, Emit.cols, hslab.shape]
  constructor
  · show (256 : Int) ∣ ((N / 64 * 64 : Nat) : Int)
    omega
  · intro hrow
    rw [hmodule] at hrow
    have hrow := rowParallelName_of_module hrow
    rw [← hname] at hrow
    have hS := hS hrow
    show (128 : Int) ∣ ((K / 32 * 32 : Nat) : Int)
    omega

end

/-! ### The GDN input projection -/

/-- `stem` of `_pxq4_emit_names`. -/
def stemOf (hf : String) : String := if endswith hf ".weight" then chop hf 7 else hf

theorem toList_stemOf (hf : String) : (stemOf hf).toList =
    if endswith hf ".weight" then hf.toList.take (hf.toList.length - 7) else hf.toList := by
  rw [stemOf]
  split
  · rw [chop, String.toList_ofList]
  · rfl

/-- The stem of a name with something in front. -/
theorem stemOf_append (front : String) {t : String} (ht : 7 ≤ t.toList.length) :
    stemOf (front ++ t) = front ++ stemOf t := by
  have hend : endswith (front ++ t) ".weight" = endswith t ".weight" := by
    rw [Bool.eq_iff_iff, endswith_iff, endswith_iff, String.toList_append]
    constructor
    · intro h
      exact List.suffix_of_suffix_length_le h (List.suffix_append _ _) ht
    · exact fun h => h.trans (List.suffix_append _ _)
  have hchop : chop (front ++ t) 7 = front ++ chop t 7 := by
    rw [chop, chop, String.toList_append, List.length_append, Nat.add_sub_assoc ht,
      List.take_length_add_append, String.ofList_append, String.ofList_toList]
  rw [stemOf, stemOf, hend, hchop]
  split <;> rfl

/-- The ends that lead to the fused module. -/
def GDN_INPUT_PARTS : List String :=
  ["linear_attn.in_proj_qkvz", "linear_attn.in_proj_qkv", "linear_attn.in_proj_z"]

theorem part_of_module {stem : String} (h : isModule GDN_INPUT_MODULES (fuse stem) = true) :
    ∃ s ∈ GDN_INPUT_PARTS, s.toList <:+ stem.toList := by
  obtain ⟨p, hp, hend⟩ := isModule_suffix h
  rcases fuse_cases stem with heq | ⟨f, hf, hpart, hfuse⟩
  · rw [heq] at hend
    exact ⟨p, List.mem_of_mem_head? (by rw [List.mem_singleton.mp hp]; rfl), hend⟩
  · have honly : ∀ p ∈ GDN_INPUT_MODULES, ∀ f ∈ FUSE,
        (p.toList <:+ f.2.toList ∨ f.2.toList <:+ p.toList) → f.1 ∈ GDN_INPUT_PARTS := by decide +kernel
    exact ⟨f.1, honly p hp f hf (suffix_cases hend hfuse), hpart⟩

theorem mem_of_lookup {l : List (String × String)} {k v : String} (h : l.lookup k = some v) :
    (k, v) ∈ l := by
  obtain ⟨front, back, rfl, -⟩ := List.lookup_eq_some_iff.mp h
  simp

/-- Only two tensors lead to it. -/
theorem SlabOf.gdn_source {N K : Nat} (hslab : SlabOf gg geom e hf N K)
    (h : isModule GDN_INPUT_MODULES e.module = true) :
    ggmlSuffix e.src = "attn_qkv.weight" ∨ ggmlSuffix e.src = "attn_gate.weight" := by
  have hmodule : e.module = fuse (stemOf hf) := by
    rw [Emit.module, hslab.name, HF_MODULE_OF]
    exact congrArg fuse (dropLeaf_slabs _)
  rw [hmodule] at h
  obtain ⟨part, hpart, hend⟩ := part_of_module h
  have hname := hslab.toHf
  rw [GGML_TO_HF] at hname
  split at hname
  · -- no name of the global map ends with a part
    rename_i hf' hlookup
    cases hname
    have hnone : ∀ p ∈ GLOBAL_MAP, ∀ s ∈ GDN_INPUT_PARTS, ¬ s.toList <:+ (stemOf p.2).toList := by
      simp only [toList_stemOf]
      decide +kernel
    exact absurd hend (hnone _ (mem_of_lookup hlookup) part hpart)
  · split at hname
    · cases hname
    · rename_i digits suffix hblk
      split at hname
      · cases hname
      · split at hname
        · rename_i t hlookup
          cases hname
          -- a name of the maps has room for `.weight`, and two of them end with a part
          have hmaps : ∀ p ∈ COMMON_MAP ++ ATTN_MAP ++ GDN_MAP, 7 ≤ p.2.toList.length ∧
              ∀ s ∈ GDN_INPUT_PARTS,
                (s.toList <:+ (stemOf p.2).toList ∨ (stemOf p.2).toList <:+ s.toList) →
                  p.1 = "attn_qkv.weight" ∨ p.1 = "attn_gate.weight" := by
            simp only [toList_stemOf]
            decide +kernel
          obtain ⟨hlong, honly⟩ := hmaps _ (mem_of_lookup hlookup)
          rw [stemOf_append _ hlong, String.toList_append] at hend
          have hsuffix : ggmlSuffix e.src = suffix := by rw [ggmlSuffix, hblk]; rfl
          rw [hsuffix]
          exact honly part hpart (suffix_cases hend (List.suffix_append _ _))
        · cases hname

/-- What a reordering of rows demands of a tensor. -/
theorem gdnPermFor_rows {name suffix : String} {shape : List Nat} {spec : GdnSpec}
    (hspec : GDN_PERM_SPEC.lookup suffix = some spec)
    (h : gdnPermFor name suffix shape geom = .ok perm) :
    ∃ axis_len, shape[spec.axis]? = some axis_len ∧
      (axis_len : Int) = gdnOff geom spec + geom.n_v_heads * gdnUnit geom spec := by
  simp only [gdnPermFor, hspec] at h
  split at h
  · cases h
  · rename_i axis_len hshape
    refine ⟨axis_len, hshape, ?_⟩
    simp only [gdnPermutation, hspec] at h
    split at h
    · cases h
    · rename_i heq
      exact not_not.mp heq

/-- The rows of a matrix that is part of the GDN input projection. -/
theorem SlabOf.gdn_rows {N K : Nat} (hslab : SlabOf gg geom e hf N K)
    (h : isModule GDN_INPUT_MODULES e.module = true)
    (hmatrix : (gg.tensors e.src).dims.length = 2) :
    e.rows = geom.qkv_rows ∨ e.rows = geom.value_dim := by
  obtain ⟨perm, hperm⟩ := hslab.perm
  have hfirst : (gg.tensors e.src).logical_shape[0]? = some N := by
    rw [← hslab.ne1, TensorInfo.logical_shape, TensorInfo.ne1]
    obtain ⟨K', N', hdims⟩ := List.length_eq_two.mp hmatrix
    rw [hdims]
    rfl
  have hvalue := geom.value_dim_eq
  rw [hslab.rows_eq]
  rcases hslab.gdn_source h with hsuffix | hsuffix <;> rw [hsuffix] at hperm
  · have hspec : GDN_PERM_SPEC.lookup "attn_qkv.weight" = some ⟨0, .qk_offset, .head_block⟩ := by
      decide
    obtain ⟨axis_len, haxis, hlen⟩ := gdnPermFor_rows hspec hperm
    rw [hfirst] at haxis
    cases haxis
    left
    rw [hlen, GdnGeometry.qkv_rows, ← hvalue]
    show geom.key_dim * 2 + geom.n_v_heads * geom.head_dim = _
    rw [Int.mul_comm geom.key_dim]
  · have hspec : GDN_PERM_SPEC.lookup "attn_gate.weight" = some ⟨0, .zero, .head_block⟩ := by
      decide
    obtain ⟨axis_len, haxis, hlen⟩ := gdnPermFor_rows hspec hperm
    rw [hfirst] at haxis
    cases haxis
    right
    rw [hlen, ← hvalue]
    exact Int.zero_add _

/-! ### When a plan can be loaded -/

section

variable {size tp : Int} (htp : tp ∈ [(1 : Int), 2, 4])

include htp

/-- Whole panels of a fourth are whole panels of a half and of all. -/
theorem dvd_panels (hsize : 256 ∣ size) : tp ∣ size ∧ (PANEL_ROWS : Int) ∣ size / tp := by
  simp only [List.mem_cons, List.not_mem_nil, or_false] at htp
  simp only [PANEL_ROWS]
  rcases htp with rfl | rfl | rfl <;> omega

theorem dvd_slabs (hsize : 128 ∣ size) : tp ∣ size ∧ (SLAB_COLS : Int) ∣ size / tp := by
  simp only [List.mem_cons, List.not_mem_nil, or_false] at htp
  simp only [SLAB_COLS]
  rcases htp with rfl | rfl | rfl <;> omega

end

theorem dvd_sum {n : Int} (hsizes : ∀ size ∈ sizes, n ∣ size) : n ∣ sizes.sum := by
  induction sizes with
  | nil => exact Int.dvd_zero n
  | cons size sizes ih =>
    rw [List.forall_mem_cons] at hsizes
    rw [List.sum_cons]
    exact Int.dvd_add hsizes.1 (ih hsizes.2)

theorem wholeOffsets (hsizes : ∀ size ∈ sizes, (PANEL_ROWS : Int) ∣ size) : WholeOffsets sizes :=
  fun _ => dvd_sum fun size hsize => hsizes size (List.mem_of_mem_take hsize)

section

variable {gg : GGUFFile} {policy : Policy} {visual : List (String × List Nat)}
  {have_encoder : Bool} {limit_layers : Nat} {plan : Plan} {geom : GdnGeometry}
  (h : buildPlan gg policy visual have_encoder limit_layers = .ok (plan, geom))

include h

/-- Every partition of an aligned plan is a multiple of 256. -/
theorem outputSizes_dvd (haligned : plan.Aligned geom gg) {e : Emit} (he : e ∈ plan.slabs) :
    ∀ size ∈ plan.outputSizes geom e.module, 256 ∣ size := by
  rw [Plan.outputSizes]
  split
  · rename_i hgdn
    obtain ⟨⟨hf, N, K, hslab⟩, hcheck⟩ := buildPlan_slabs h e he
    obtain ⟨hkey, hvalue⟩ := haligned e he hgdn
    have hrows := (hslab.shards (List.mem_filter.mp he).2 hcheck).1
    have hvalue : 256 ∣ geom.value_dim := by
      rcases hvalue with hmatrix | hvalue
      · -- the check is about the sum, and the key rows are taken from it
        rcases hslab.gdn_rows hgdn hmatrix with heq | heq
        · rw [heq, GdnGeometry.qkv_rows] at hrows
          omega
        · rwa [heq] at hrows
      · exact hvalue
    simp [hkey, hvalue]
  · intro size hsize
    obtain ⟨e', he', rfl⟩ := List.mem_map.mp hsize
    have he' := (List.mem_filter.mp he').1
    obtain ⟨⟨hf, N, K, hslab⟩, hcheck⟩ := buildPlan_slabs h e' he'
    exact (hslab.shards (List.mem_filter.mp he').2 hcheck).1

/-- An aligned plan can be loaded. -/
theorem loadable_of_aligned (haligned : plan.Aligned geom gg) : plan.Loadable geom := by
  intro e he tp htp
  obtain ⟨⟨hf, N, K, hslab⟩, hcheck⟩ := buildPlan_slabs h e he
  have hshards := (hslab.shards (List.mem_filter.mp he).2 hcheck).2
  have hsizes := outputSizes_dvd h haligned he
  have hpanel : ∀ size ∈ plan.outputSizes geom e.module, (PANEL_ROWS : Int) ∣ size :=
    fun size hsize => Int.dvd_trans (by decide) (hsizes size hsize)
  have hcols : (SLAB_COLS : Int) ∣ e.cols := by
    rw [hslab.cols_eq]
    exact (assertGeometry_eq_ok hslab.geometry).2.2
  by_cases hrow : isModule ROW_PARALLEL_MODULES e.module = true
  · -- the contraction dimension is split
    have hsplit := dvd_slabs htp (hshards hrow)
    have hin : (plan.layer geom e tp).input_size_per_partition = e.cols / tp := if_pos hrow
    have hout : (plan.layer geom e tp).output_partition_sizes = plan.outputSizes geom e.module :=
      if_pos hrow
    have hback : e.cols = e.cols / tp * tp := (Int.ediv_mul_cancel hsplit.1).symm
    rw [Plan.Divides, if_pos hrow, createWeights_eq_ok, hin, hout]
    exact ⟨hsplit.1, ⟨rfl, hsplit.2, dvd_sum hpanel, hpanel, dvd_sum hpanel, hcols, Or.inr hback,
      _, rfl, Or.inl rfl⟩, wholeOffsets hpanel, wholeOffsets hpanel⟩
  · -- the partitions are split
    have hin : (plan.layer geom e tp).input_size_per_partition = e.cols := if_neg hrow
    have hout : (plan.layer geom e tp).output_partition_sizes =
        (plan.outputSizes geom e.module).map (· / tp) := if_neg hrow
    have hparts : ∀ o ∈ (plan.outputSizes geom e.module).map (· / tp), (PANEL_ROWS : Int) ∣ o := by
      intro o ho
      obtain ⟨size, hsize, rfl⟩ := List.mem_map.mp ho
      exact (dvd_panels htp (hsizes size hsize)).2
    rw [Plan.Divides, if_neg hrow, createWeights_eq_ok, hin, hout]
    exact ⟨fun size hsize => (dvd_panels htp (hsizes size hsize)).1,
      ⟨rfl, hcols, dvd_sum hparts, hparts, dvd_sum hpanel, hcols, Or.inl rfl, _, rfl, Or.inl rfl⟩,
      wholeOffsets hparts, wholeOffsets hpanel⟩

omit h in
/-- Only an aligned plan can. -/
theorem aligned_of_loadable (hloadable : plan.Loadable geom) : plan.Aligned geom gg := by
  intro e he hgdn
  obtain ⟨hdivides, hcreate, -, -⟩ := hloadable e he 4 (by simp)
  have hrow : ¬ isModule ROW_PARALLEL_MODULES e.module = true := by
    intro hrow
    obtain ⟨p, hp, hend⟩ := isModule_suffix hgdn
    obtain ⟨q, hq, hend'⟩ := isModule_suffix hrow
    have hnone : ∀ p ∈ GDN_INPUT_MODULES, ∀ q ∈ ROW_PARALLEL_MODULES,
        ¬ (p.toList <:+ q.toList ∨ q.toList <:+ p.toList) := by decide
    exact hnone p hp q hq (suffix_cases hend hend')
  have hsizes : plan.outputSizes geom e.module =
      [geom.key_dim, geom.key_dim, geom.value_dim, geom.value_dim] := if_pos hgdn
  have hout : (plan.layer geom e 4).output_partition_sizes =
      (plan.outputSizes geom e.module).map (· / 4) := if_neg hrow
  have hparts := (createWeights_eq_ok.mp hcreate).2.2.2.1
  rw [Plan.Divides, if_neg hrow, hsizes] at hdivides
  rw [hout, hsizes] at hparts
  simp only [PANEL_ROWS, List.map_cons, List.forall_mem_cons] at hdivides hparts
  exact ⟨by omega, Or.inr (by omega)⟩

end

/-- Of an accepted plan every served layer can be loaded on one, two and four ranks if and only if
the key rows of a served GDN input projection are a multiple of 256. -/
theorem buildPlan_loadable_iff (gg : GGUFFile) (policy : Policy) (visual : List (String × List Nat))
    (have_encoder : Bool) (limit_layers : Nat) (plan : Plan) (geom : GdnGeometry)
    (h : buildPlan gg policy visual have_encoder limit_layers = .ok (plan, geom)) :
    plan.Loadable geom ↔ plan.Aligned geom gg :=
  ⟨aligned_of_loadable, loadable_of_aligned h⟩

/-- A file with one GDN block: `n_k` key heads and `n_v` value heads of 128 rows, 64 columns. -/
def oneBlock (n_k n_v : Nat) : GGUFFile where
  kv := fun key => List.lookup key [("qwen35.ssm.group_count", (n_k : Int)),
    ("qwen35.ssm.time_step_rank", (n_v : Int)), ("qwen35.ssm.state_size", 128),
    ("qwen35.ssm.inner_size", ((n_v * 128 : Nat) : Int)), ("qwen35.block_count", 1)]
  order := ["blk.0.attn_qkv.weight", "blk.0.attn_gate.weight"]
  tensors := fun name =>
    { dims := if name = "blk.0.attn_qkv.weight" then [64, (2 * n_k + n_v) * 128] else [64, n_v * 128]
      type_id := GGML_PXQ4
      type := "pxq4" }

/-- Its geometry. -/
def oneBlockGeometry (n_k n_v : Nat) (hk : 0 < n_k) (hv : 0 < n_v) (hrepeat : n_v % n_k = 0) :
    GdnGeometry where
  n_k_heads := n_k
  n_v_heads := n_v
  head_dim := 128
  value_dim := (n_v * 128 : Nat)
  k_pos := by omega
  v_pos := by omega
  repeat_structure := by omega
  value_dim_eq := by omega

/-- What is planned for one of its tensors of `p` panels. -/
def oneBlockEmits (part src : String) (p : Nat) : List Emit :=
  [⟨"model.language_model.layers.0.linear_attn.in_proj_" ++ part ++ ".pxq4_slabs", .pxq4,
      [p, 2, 1088], src, true⟩,
    ⟨"model.language_model.layers.0.linear_attn.in_proj_" ++ part ++ ".pxq4_anchor", .pxq4,
      [p, 64], src, true⟩]

def oneBlockTypes : List (String × EmitKind) :=
  [("model.language_model.layers.0.linear_attn.in_proj_qkvz", .pxq4)]

/-- Its plan: `p` and `q` panels. -/
def oneBlockPlan (p q : Nat) : Plan :=
  ⟨oneBlockEmits "qkv" "blk.0.attn_qkv.weight" p ++ oneBlockEmits "z" "blk.0.attn_gate.weight" q,
    oneBlockTypes ++ oneBlockTypes⟩

/-- Its plan is what its two tensors give, when that passes the check. -/
theorem buildPlan_oneBlock {n_k n_v p q : Nat} {geom : GdnGeometry}
    (hgeom : gdnGeometry (oneBlock n_k n_v).kv = .ok geom)
    (htensors : checkAgainstTensors geom (gdnShapes (oneBlock n_k n_v)) = .ok ())
    (hqkv : planTensor (oneBlock n_k n_v) geom .p1 false 0 ⟨[], []⟩ "blk.0.attn_qkv.weight" =
      .ok ⟨oneBlockEmits "qkv" "blk.0.attn_qkv.weight" p, oneBlockTypes⟩)
    (hgate : planTensor (oneBlock n_k n_v) geom .p1 false 0
      ⟨oneBlockEmits "qkv" "blk.0.attn_qkv.weight" p, oneBlockTypes⟩ "blk.0.attn_gate.weight" =
      .ok (oneBlockPlan p q))
    (hcheck : checkPlan (oneBlockPlan p q) .p1 geom = .ok ()) :
    buildPlan (oneBlock n_k n_v) .p1 [] false 0 = .ok (oneBlockPlan p q, geom) := by
  have horder : (oneBlock n_k n_v).order = ["blk.0.attn_qkv.weight", "blk.0.attn_gate.weight"] := rfl
  simp only [buildPlan, hgeom, htensors, horder, List.foldlM_cons, hqkv, hgate, List.foldlM_nil,
    bind, Except.bind, pure, Except.pure, List.map_nil, List.append_nil, hcheck]

/-- 256 key rows: 64 on each of four ranks. -/
theorem buildPlan_twoKeyHeads : ∃ plan geom,
    buildPlan (oneBlock 2 4) .p1 [] false 0 = .ok (plan, geom) ∧ plan.slabs.length = 2 ∧
      plan.Loadable geom := by
  have hplan := @buildPlan_oneBlock 2 4 16 8
    (oneBlockGeometry 2 4 (by decide) (by decide) (by decide)) rfl (by decide +kernel)
    (by decide +kernel) (by decide +kernel) (by decide +kernel)
  refine ⟨_, _, hplan, by decide +kernel, ?_⟩
  refine (buildPlan_loadable_iff _ _ _ _ _ _ _ hplan).mpr fun e _ _ => ⟨by decide, Or.inl ?_⟩
  simp only [oneBlock]
  split <;> rfl

/-- 128 key rows: 32 on each of four ranks. -/
theorem buildPlan_oneKeyHead : ∃ plan geom,
    buildPlan (oneBlock 1 2) .p1 [] false 0 = .ok (plan, geom) ∧ ¬ plan.Loadable geom := by
  have hplan := @buildPlan_oneBlock 1 2 8 4
    (oneBlockGeometry 1 2 (by decide) (by decide) (by decide)) rfl (by decide +kernel)
    (by decide +kernel) (by decide +kernel) (by decide +kernel)
  refine ⟨_, _, hplan, fun hloadable => ?_⟩
  obtain ⟨e, he, hgdn⟩ : ∃ e ∈ (oneBlockPlan 8 4).slabs,
      isModule GDN_INPUT_MODULES e.module = true := by decide +kernel
  have haligned := @aligned_of_loadable (oneBlock 1 2) _ _ hloadable e he hgdn
  exact absurd haligned.1 (by decide)

end PxqLlama.Pxq
