import PxqLlama.Kv.Defrag
import PxqLlama.Lib.BlockCopy

/-!
# `Kv.DefragGraph`: the rows of a cache, and the copies of a defragmentation

Each layer keeps one row of K and one row of V for every cell. `KvLayer` is the layout of the
two tensors as `llama_kv_cache_init` makes them. A row of K is `kRows` rows of its tensor. The
rows of V lie one behind the other, or the tensor is transposed (`v_trans`) and a row of V is
a column of it.

`buildDefrag` is the graph of `build_defrag` in `llama-build-context.cpp`: it groups the map
`ids` into blocks, and copies each block in each layer. It has its own idea of the layout,
from `n_embd_k_gqa`, `n_embd_v_gqa` and `flash_attn`. All addresses are bytes of a tensor.
-/

namespace PxqLlama.Kv

open BlockCopy (Copy execAll)

/-- `type_traits`: a row is a header of `row_meta_size` bytes and blocks of `type_size` bytes,
one for each `blck_size` elements. -/
structure GgmlType where
  blckSize : Nat
  typeSize : Nat
  rowMetaSize : Nat
  blckSize_pos : 0 < blckSize
  rowMetaSize_le : rowMetaSize ≤ typeSize
  typeSize_pos : 0 < typeSize

/-- The bytes of the blocks of a row. -/
def GgmlType.blockBytes (t : GgmlType) (ne : Nat) : Nat := t.typeSize * ne / t.blckSize

/-- `ggml_row_size`. -/
def ggmlRowSize (t : GgmlType) (ne : Nat) : Nat := t.rowMetaSize + t.blockBytes ne

/-- `v_l[il]`: one row of elements for each cell. -/
structure VTensor where
  type : GgmlType
  nEmbd : Nat
  nEmbd_pos : 0 < nEmbd
  nEmbd_dvd : type.blckSize ∣ nEmbd

/-- `k_l[il]`, `v_l[il]` when there is one, and the widths of `hparams`. A tensor of `ggml` is
made of whole blocks. K has one row for each head, or a single one with the compressed latent
of MLA. -/
structure KvLayer where
  kType : GgmlType
  /-- `ne[0]` of the K tensor. -/
  kNe0 : Nat
  /-- The rows of the K tensor that make up one row of K. -/
  kRows : Nat
  v : Option VTensor
  nEmbdKGqa : Nat
  nEmbdVGqa : Nat
  kNe0_pos : 0 < kNe0
  kRows_pos : 0 < kRows
  kRows_eq : kRows = 1 ∨ kRows * kNe0 = nEmbdKGqa
  kNe0_dvd : kType.blckSize ∣ kNe0
  nEmbdKGqa_dvd : kType.blckSize ∣ nEmbdKGqa
  nEmbdVGqa_dvd : ∀ vt ∈ v, vt.type.blckSize ∣ nEmbdVGqa

/-- The layers that have a K tensor in the cache, and what decides on the layout of V. A type
of V with blocks or headers needs flash attention. -/
structure KvLayout where
  layers : List KvLayer
  recurrent : Bool
  hybrid : Bool
  flashAttn : Bool
  plain_v : flashAttn = false → ∀ l ∈ layers, ∀ vt ∈ l.v,
    vt.type.blckSize = 1 ∧ vt.type.rowMetaSize = 0

/-- `cache.v_trans`. -/
def KvLayout.vTrans (cfg : KvLayout) : Bool := !cfg.recurrent && !cfg.flashAttn && !cfg.hybrid

/-! ### Rows -/

/-- The bytes of one row of K. -/
def KvLayer.kStride (l : KvLayer) : Nat := l.kRows * ggmlRowSize l.kType l.kNe0

/-- Byte `b` of the row of K of a cell. -/
def KvLayer.kAddr (l : KvLayer) (cell b : Nat) : Nat := cell * l.kStride + b

/-- The bytes of one row of V. -/
def VTensor.rowBytes (vt : VTensor) : Nat := ggmlRowSize vt.type vt.nEmbd

/-- Byte `b` of the row of V of a cell. -/
def VTensor.addr (vt : VTensor) (vTrans : Bool) (size cell b : Nat) : Nat :=
  if vTrans then
    b / vt.type.typeSize * (vt.type.typeSize * size) + vt.type.typeSize * cell
      + b % vt.type.typeSize
  else cell * vt.rowBytes + b

/-- A tensor of the cache. -/
inductive KvTensor
  | k (il : Nat)
  | v (il : Nat)
  deriving DecidableEq, Repr

/-- The content of the tensors. -/
abbrev KvData := KvTensor → Nat → UInt8

/-- `ggml_nbytes` of the tensors of a layer. -/
def KvLayer.kBytes (l : KvLayer) (size : Nat) : Nat := size * l.kStride

def VTensor.bytes (vt : VTensor) (size : Nat) : Nat :=
  vt.type.rowMetaSize + vt.type.blockBytes (vt.nEmbd * size)

/-! ### The graph -/

/-- `while (i + nm < ids.size() && ids[i + nm] == id + nm) nm++;` -/
def runLength (ids : Nat → Nat) (n i id : Nat) : Nat → Nat → Nat
  | 0, nm => nm
  | fuel + 1, nm =>
    if i + nm < n ∧ ids (i + nm) = id + nm then runLength ids n i id fuel (nm + 1) else nm

/-- The blocks of cells that `build_defrag` copies, in its order. -/
def defragBlocks (ids : Nat → Nat) (n : Nat) : Nat → Nat → List Copy
  | 0, _ => []
  | fuel + 1, i =>
    if n ≤ i then []
    else if i = ids i ∨ ids i = n then defragBlocks ids n fuel (i + 1)
    else
      let nm := runLength ids n i (ids i) n 1
      { src := i, dst := ids i, len := nm } :: defragBlocks ids n fuel (i + nm)

/-- The copy of a block of rows, `width` elements each. -/
def rowsCopy (t : GgmlType) (width : Nat) (block : Copy) : Copy where
  src := ggmlRowSize t (width * block.src)
  dst := ggmlRowSize t (width * block.dst)
  len := block.len * ggmlRowSize t width

/-- The copy of a block of one transposed row. -/
def columnCopy (t : GgmlType) (size : Nat) (block : Copy) (row : Nat) : Copy where
  src := row * ggmlRowSize t size + ggmlRowSize t block.src
  dst := row * ggmlRowSize t size + ggmlRowSize t block.dst
  len := ggmlRowSize t block.len

/-- `view_v_src` and `view_v_dst`: "the V cache is not transposed when using flash attention". -/
def vCopies (flashAttn : Bool) (size width : Nat) (vt : VTensor) (block : Copy) : List Copy :=
  if flashAttn then [rowsCopy vt.type width block]
  else (List.range width).map (columnCopy vt.type size block)

/-- The copies of one block in one layer. -/
def layerCopies (flashAttn : Bool) (size il : Nat) (l : KvLayer) (block : Copy) :
    List (KvTensor × Copy) :=
  (.k il, rowsCopy l.kType l.nEmbdKGqa block) ::
    match l.v with
    | none => []
    | some vt => (vCopies flashAttn size l.nEmbdVGqa vt block).map fun c => (.v il, c)

/-- `build_defrag`. -/
def buildDefrag (cfg : KvLayout) (size n : Nat) (ids : Nat → Nat) : List (KvTensor × Copy) :=
  (defragBlocks ids n n 0).flatMap fun block =>
    cfg.layers.zipIdx.flatMap fun (l, il) => layerCopies cfg.flashAttn size il l block

/-- The size of a tensor; zero when there is no such tensor. -/
def KvLayout.bytes (cfg : KvLayout) (size : Nat) : KvTensor → Nat
  | .k il => (cfg.layers[il]?.map fun l => l.kBytes size).getD 0
  | .v il => (cfg.layers[il]?.bind fun l => l.v.map fun vt => vt.bytes size).getD 0

/-- The copies of a graph that act on a tensor. -/
def copiesOf (t : KvTensor) (gf : List (KvTensor × Copy)) : List Copy :=
  (gf.filter fun node => node.1 = t).map Prod.snd

/-- `llama_graph_compute`: the nodes in order. A view that leaves its tensor is an error. -/
def graphCompute (cfg : KvLayout) (size : Nat) (gf : List (KvTensor × Copy)) (m : KvData) :
    Option KvData :=
  if ∀ node ∈ gf, node.2.Fits (cfg.bytes size node.1) then
    some (gf.foldl (fun m node => Function.update m node.1 (node.2.exec (m node.1))) m)
  else none

/-- What `llama_kv_cache_defrag_internal` does to the content, after its loops. -/
def defragData (cfg : KvLayout) (c : KvCache) (st : DefragState) (m : KvData) : Option KvData :=
  if st.nMoves = 0 then some m
  else graphCompute cfg c.size (buildDefrag cfg c.size (llamaKvCacheCellMax c) st.ids) m

/-! ### Facts about the graph -/

theorem foldl_exec_tensor (gf : List (KvTensor × Copy)) (m : KvData) (t : KvTensor) :
    (gf.foldl (fun m node => Function.update m node.1 (node.2.exec (m node.1))) m) t
      = execAll (copiesOf t gf) (m t) := by
  induction gf generalizing m with
  | nil => rfl
  | cons node gf ih =>
    rw [List.foldl_cons, ih]
    by_cases ht : node.1 = t
    · subst ht
      simp [copiesOf, execAll]
    · rw [Function.update_of_ne (Ne.symm ht)]
      simp [copiesOf, ht]

/-- A tensor after the graph. -/
theorem graphCompute_tensor {cfg : KvLayout} {size : Nat} {gf : List (KvTensor × Copy)}
    {m m' : KvData} (h : graphCompute cfg size gf m = some m') (t : KvTensor) :
    m' t = execAll (copiesOf t gf) (m t) := by
  rw [graphCompute] at h
  split at h
  · cases h
    exact foldl_exec_tensor gf m t
  · cases h

end PxqLlama.Kv
