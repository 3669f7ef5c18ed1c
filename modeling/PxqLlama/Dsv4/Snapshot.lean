import PxqLlama.Dsv4.Memory

/-!
# `Dsv4.Snapshot`: the speculative snapshot

A verify batch writes rows of the raw ring, of the compressor states and of the compressed
caches. `llamaDsv4SpecSnapshot` saves the rows that the batch will write, before it is
decoded, and `llamaDsv4SpecRestore` puts them back. The rows are derived from the batch a
second time; nothing records what the graph really writes. `setRowsIdxs` is what it writes:
the index list that `ggml_set_rows` gets for each tensor.

The saved bytes share one growing blob, and each saved row keeps its offset in it.
-/

namespace PxqLlama.Dsv4

/-- `enum llama_dsv4_stream`. -/
inductive Dsv4Stream
  | csa
  | hca
  | lid
  deriving DecidableEq, Repr

/-- The value of the enumerator. -/
def Dsv4Stream.toNat : Dsv4Stream → Nat
  | .csa => 0
  | .hca => 1
  | .lid => 2

/-- A tensor of the memory, by the vector it is in and its slot there. -/
inductive TensorId
  | rawK (j : Nat)
  | k (si : Dsv4Stream) (j : Nat)
  | stKv (si : Dsv4Stream) (j : Nat)
  | stScore (si : Dsv4Stream) (j : Nat)
  deriving DecidableEq, Repr

/-- `struct llama_dsv4_memory`: the tensors that `dsv4_alloc` makes. There is a raw tensor
for each layer, and the three vectors of a stream have one length. -/
structure Dsv4Memory where
  rawSize : Nat
  rawLayers : Nat
  s : Dsv4Stream → StreamParams
  layers : Dsv4Stream → Nat
  /-- `nb[1]`: the bytes of a row. -/
  nb1 : TensorId → Nat
  rawSize_pos : 0 < rawSize
  rawLayers_pos : 0 < rawLayers
  nb1_pos : ∀ t, 0 < nb1 t

/-- `ne[1]`: the rows of a tensor. -/
def Dsv4Memory.ne1 (mem : Dsv4Memory) : TensorId → Nat
  | .rawK _ => mem.rawSize
  | .k si _ => (mem.s si).cacheSize
  | .stKv si _ => (mem.s si).stateSize
  | .stScore si _ => (mem.s si).stateSize

/-- The bytes of all tensors, by tensor and offset. -/
abbrev TensorBytes := TensorId × Nat → UInt8

/-- `ggml_backend_tensor_get`. -/
def tensorGet (data : TensorBytes) (t : TensorId) (off len : Nat) : List UInt8 :=
  (List.range len).map fun k => data (t, off + k)

/-- `ggml_backend_tensor_set`. -/
def tensorSet (data : TensorBytes) (t : TensorId) (off : Nat) (bytes : List UInt8) :
    TensorBytes :=
  Stores.run (bytes.zipIdx.map fun vk => ((t, off + vk.2), vk.1)) data

/-- `struct dsv4_saved_row`. -/
structure SavedRow where
  t : TensorId
  off : Nat
  len : Nat
  blobOff : Nat

/-- `struct dsv4_spec_snapshot_state`; the components are 0 (raw), 1, 2 and 3. -/
structure SpecSnapshot where
  valid : Bool
  blob : List UInt8
  rows : Nat → List SavedRow

/-- `dsv4_snap_add`. -/
def dsv4SnapAdd (mem : Dsv4Memory) (data : TensorBytes) (S : SpecSnapshot) (comp : Nat)
    (t : TensorId) (row : Int) : SpecSnapshot :=
  if row < 0 ∨ (mem.ne1 t : Int) ≤ row then S
  else
    let len := mem.nb1 t
    let r : SavedRow := { t := t, off := row.toNat * len, len := len, blobOff := S.blob.length }
    { S with
      blob := S.blob ++ tensorGet data t r.off r.len
      rows := Function.update S.rows comp (S.rows comp ++ [r]) }

/-- The raw rows of token `i`, unless an earlier token has the same ring row. -/
def snapRawToken (mem : Dsv4Memory) (data : TensorBytes) (b : LlamaBatch)
    (acc : SpecSnapshot × List Int) (i : Nat) : SpecSnapshot × List Int :=
  let (S, seen) := acc
  let p := dsv4BatchPos b i
  if p < 0 then (S, seen)
  else
    let row := p.tmod mem.rawSize
    if row ∈ seen then (S, seen)
    else
      ((List.range mem.rawLayers).foldl (fun S j => dsv4SnapAdd mem data S 0 (.rawK j) row) S,
        seen ++ [row])

/-- The rows of one compressed stream. -/
def snapStream (mem : Dsv4Memory) (data : TensorBytes) (b : LlamaBatch) (S : SpecSnapshot)
    (si : Dsv4Stream) : SpecSnapshot :=
  if mem.layers si = 0 then S
  else
    let plan := (mem.s si).plan b
    let comp := si.toNat + 1
    (List.range (mem.layers si)).foldl (fun S j =>
      let S := plan.statePersistDstIdxs.foldl (fun S (dst : Nat) =>
        let S := dsv4SnapAdd mem data S comp (.stKv si j) dst
        dsv4SnapAdd mem data S comp (.stScore si j) dst) S
      plan.stateWriteIdxs.foldl (fun S (dst : Nat) =>
        dsv4SnapAdd mem data S comp (.k si j) dst) S) S

/-- `llama_dsv4_spec_snapshot`. What the snapshot held before is cleared. -/
def llamaDsv4SpecSnapshot (mem : Dsv4Memory) (data : TensorBytes) (b : LlamaBatch) :
    SpecSnapshot :=
  let S : SpecSnapshot := { valid := false, blob := [], rows := fun _ => [] }
  let S := ((List.range b.nTokens).foldl (snapRawToken mem data b) (S, [])).1
  let S := [Dsv4Stream.csa, .hca, .lid].foldl (snapStream mem data b) S
  { S with valid := true }

/-- `llama_dsv4_spec_restore`: whether there was a snapshot, and the bytes after it. -/
def llamaDsv4SpecRestore (S : SpecSnapshot) (components : Nat) (data : TensorBytes) :
    Bool × TensorBytes :=
  if S.valid = false then (false, data)
  else
    (true, (List.range 4).foldl (fun data c =>
      if components.testBit c = false then data
      else (S.rows c).foldl (fun data r =>
        tensorSet data r.t r.off ((S.blob.drop r.blobOff).take r.len)) data) data)

/-! ### What the decode of a batch writes -/

/-- The index list of the `ggml_set_rows` of a tensor in the graph of the batch
(`llama_dsv4_cpy_raw_k`, `…_cpy_comp_k`, `…_cpy_state_kv`, `…_cpy_state_score`). -/
def setRowsIdxs (mem : Dsv4Memory) (b : LlamaBatch) : TensorId → List Int
  | .rawK j =>
    if j < mem.rawLayers then (List.range b.nTokens).map (rawKIdx mem.rawSize b) else []
  | .k si j =>
    if j < mem.layers si then ((mem.s si).plan b).stateWriteIdxs.map fun r : Nat => (r : Int)
    else []
  | .stKv si j | .stScore si j =>
    if j < mem.layers si then
      ((mem.s si).plan b).statePersistDstIdxs.map fun r : Nat => (r : Int)
    else []

/-- The batch can be decoded: `ggml_set_rows` asserts that each index is a row. -/
def Decodable (mem : Dsv4Memory) (b : LlamaBatch) : Prop :=
  ∀ t, ∀ r ∈ setRowsIdxs mem b t, 0 ≤ r ∧ r < mem.ne1 t

/-- The bytes after a decode: rows that are not in an index list keep their content, and
the others hold anything. -/
def Decoded (mem : Dsv4Memory) (b : LlamaBatch) (data data' : TensorBytes) : Prop :=
  ∀ a : TensorId × Nat, ((a.2 / mem.nb1 a.1 : Nat) : Int) ∉ setRowsIdxs mem b a.1 →
    data' a = data a

end PxqLlama.Dsv4
