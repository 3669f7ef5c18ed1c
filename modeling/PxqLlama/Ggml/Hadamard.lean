import PxqLlama.Lib.Stores
import PxqLlama.Lib.Walsh

/-!
# `Ggml.Hadamard`: the Hadamard op

`GGML_OP_HADAMARD` transforms every `nh` consecutive values of every row. `pxaHadamard` is what one
thread does: the chunks are numbered from the first row to the last, the numbers are cut into one
range for each thread, and each number is taken apart into the indices of a row and of a chunk in
it. The source is `f32`, or a type whose blocks `to_float` decodes into the destination.

Arithmetic on values is exact: they are in any commutative ring, and the constant `0.707106781f` is
the parameter `ksqrt2`. Arithmetic in `int` has no result where it overflows, and a conversion to
`int` keeps the lower 32 bits. Addresses are integers.

What the op is for: `expectedWrites` has each chunk of each row once, with the product of the matrix
`(-1) ^ popcount (i &&& j)` and the values of the source.
-/

namespace PxqLlama.Ggml

/-! ### `int` -/

/-- `(int) x`. -/
def castInt (x : Int) : Int := Int.bmod x (2 ^ 32)

/-- The result of an operation on `int`, where it does not overflow. -/
def intResult (x : Int) : Option Int :=
  if -2147483648 ≤ x ∧ x ≤ 2147483647 then some x else none

/-- `pxa_is_pow2_u32`. -/
def pxaIsPow2U32 (x : Nat) : Bool := x != 0 && (x &&& (x - 1)) == 0

/-! ### `pxa_fast_ht_f32` -/

/-- The values of `h`. -/
def htSizes (n : Nat) : List Nat := ((List.range n).map (2 ^ ·)).takeWhile (· < n)

/-- The values of `j` for one `h`, over all `i`. -/
def htPairs (n h : Nat) : List Nat :=
  (List.range ((n + 2 * h - 1) / (2 * h))).flatMap fun b => (List.range h).map (b * (2 * h) + ·)

section

variable {R : Type} [CommRing R]

/-- `pxa_fast_ht_f32`. -/
def pxaFastHtF32 (ksqrt2 : R) (n : Nat) (values : Nat → R) : Nat → R :=
  let done := (htSizes n).foldl (fun st h =>
    ((htPairs n h).foldl (Walsh.butterflyAt h) st.1, st.2 * ksqrt2)) (values, 1)
  fun i => if i < n then done.1 i * done.2 else done.1 i

/-! ### Tensors -/

/-- The type of a source: `blck_size` values in `type_size` bytes. -/
inductive SrcType
  | f32
  | quantized (blckSize typeSize : Nat)
deriving DecidableEq, Repr

def SrcType.blckSize : SrcType → Nat
  | f32 => 1
  | quantized blckSize _ => blckSize

def SrcType.typeSize : SrcType → Nat
  | f32 => 4
  | quantized _ typeSize => typeSize

/-- What the op reads of a `ggml_tensor`. -/
structure Tensor where
  type : SrcType
  data : Int
  ne : Fin 4 → Nat
  nb : Fin 4 → Nat

/-- What the memory of a tensor holds: the values of the block at an address. -/
abbrev Blocks (R : Type) := Int → Nat → R

namespace Tensor

/-- The address of a row. -/
def row (t : Tensor) (i3 i2 i1 : Int) : Int := t.data + i3 * t.nb 3 + i2 * t.nb 2 + i1 * t.nb 1

/-- The value at a place of a row. -/
def value (t : Tensor) (blocks : Blocks R) (i3 i2 i1 : Int) (e : Nat) : R :=
  blocks (t.row i3 i2 i1 + (e / t.type.blckSize : Nat) * t.nb 0) (e % t.type.blckSize)

end Tensor

/-- `to_float`: as many whole blocks as `n` values have. -/
def toFloat (blocks : Blocks R) (blckSize typeSize : Nat) (p : Int) (n : Nat) (y : Nat → R) :
    Nat → R :=
  fun j =>
    if j < n / blckSize * blckSize then
      blocks (p + (j / blckSize : Nat) * typeSize) (j % blckSize)
    else y j

/-! ### `pxa_hadamard` -/

/-- The indices of a row and of a chunk in it. -/
structure Chunk where
  i3 : Int
  i2 : Int
  i1 : Int
  ic : Int
deriving DecidableEq, Repr

/-- The chunk with the number `ir`. -/
def chunkOf (ne1 ne2 nc ir : Int) : Chunk :=
  let i3 := castInt (ir.tdiv (ne1 * ne2 * nc))
  let i2 := castInt ((ir - i3 * ne1 * ne2 * nc).tdiv (ne1 * nc))
  let i1 := castInt ((ir - i3 * ne1 * ne2 * nc - i2 * ne1 * nc).tdiv nc)
  let ic := castInt (ir - i3 * ne1 * ne2 * nc - i2 * ne1 * nc - i1 * nc)
  ⟨i3, i2, i1, ic⟩

/-- One round of the loop over `ir`: `nh` values at the address `y`. -/
structure ChunkWrite (R : Type) where
  chunk : Chunk
  y : Int
  values : List R

/-- The arguments of a call, and the memory before it: `blocks` is that of the source, `old` the
`f32` values at the addresses of the destination. -/
structure Call (R : Type) where
  src : Tensor
  dst : Tensor
  nh : Nat
  nth : Nat
  ksqrt2 : R
  blocks : Blocks R
  old : Int → R

namespace Call

/-- The call on another memory. -/
def on (call : Call R) (blocks : Blocks R) (old : Int → R) : Call R := { call with blocks, old }

/-- The address of a chunk of the destination. -/
def chunkAddress (call : Call R) (c : Chunk) : Int := call.dst.row c.i3 c.i2 c.i1 + c.ic * call.nh * 4

/-- What stands at `y` before it is transformed. -/
def load (call : Call R) (c : Chunk) : Nat → R :=
  let x := call.src.row c.i3 c.i2 c.i1
  match call.src.type with
  | .f32 => fun j => call.blocks (x + c.ic * call.nh * 4 + (j : Int) * 4) 0
  | .quantized blckSize typeSize =>
    toFloat call.blocks blckSize typeSize (x + (c.ic * call.nh).tdiv blckSize * typeSize) call.nh
      fun j => call.old (call.chunkAddress c + (j : Int) * 4)

def write (call : Call R) (c : Chunk) : ChunkWrite R where
  chunk := c
  y := call.chunkAddress c
  values := (List.range call.nh).map (pxaFastHtF32 call.ksqrt2 call.nh (call.load c))

/-- `nc`. -/
def nc (call : Call R) : Int := castInt ((call.dst.ne 0 / call.nh : Nat) : Int)

/-- `nr`. -/
def nr (call : Call R) : Int :=
  castInt ((call.dst.ne 1 * call.dst.ne 2 * call.dst.ne 3 : Nat) * call.nc)

end Call

/-- The numbers from `first` to `last`. -/
def threadChunks (nr nth ith : Int) : Option (List Int) := do
  let sum ← intResult (nr + nth)
  let npt := (sum - 1).tdiv nth
  let first ← intResult (npt * ith)
  let stop ← intResult (first + npt)
  let last := min stop nr
  return (List.range (last - first).toNat).map fun i : Nat => first + i

/-- `pxa_hadamard`. -/
def pxaHadamard (call : Call R) (ith : Nat) : Option (List (ChunkWrite R)) :=
  (threadChunks call.nr call.nth ith).map fun irs => irs.map fun ir =>
    call.write (chunkOf (call.dst.ne 1) (call.dst.ne 2) call.nc ir)

/-- What the threads write, one thread after the other. -/
def allWrites (call : Call R) : Option (List (ChunkWrite R)) :=
  ((List.range call.nth).mapM (pxaHadamard call)).map List.flatten

/-- What the op checks, what `ggml_hadamard` makes of the destination, and the ranges of `int`. -/
structure Call.Accepted (call : Call R) : Prop where
  dst_type : call.dst.type = .f32
  dst_row : call.dst.nb 0 = 4
  same_shape : call.src.ne = call.dst.ne
  nh_gt : 1 < call.nh
  nh_pow2 : pxaIsPow2U32 call.nh = true
  nh_lt : call.nh < 2 ^ 31
  ne0 : call.dst.ne 0 % call.nh = 0
  blck_pos : 0 < call.src.type.blckSize
  blck : call.nh % call.src.type.blckSize = 0 ∨ call.src.type.blckSize % call.nh = 0
  nth_pos : 0 < call.nth
  nth_lt : call.nth < 2 ^ 31

/-- The number of chunks. -/
def Call.total (call : Call R) : Nat :=
  call.dst.ne 3 * call.dst.ne 2 * call.dst.ne 1 * (call.dst.ne 0 / call.nh)

/-! ### What the op is for -/

/-- The values of a chunk of the source. -/
def Call.source (call : Call R) (c : Chunk) (j : Nat) : R :=
  call.src.value call.blocks c.i3 c.i2 c.i1 (c.ic.toNat * call.nh + j)

/-- A chunk of the source multiplied by the matrix. -/
def Call.expected (call : Call R) (c : Chunk) : ChunkWrite R where
  chunk := c
  y := call.chunkAddress c
  values := (List.range call.nh).map fun i => call.ksqrt2 ^ call.nh.log2 *
    ∑ j ∈ Finset.range call.nh, Walsh.entry i j * call.source c j

/-- Every chunk of every row. -/
def Call.chunks (call : Call R) : List Chunk :=
  (List.range (call.dst.ne 3)).flatMap fun i3 : Nat =>
    (List.range (call.dst.ne 2)).flatMap fun i2 : Nat =>
      (List.range (call.dst.ne 1)).flatMap fun i1 : Nat =>
        (List.range (call.dst.ne 0 / call.nh)).map fun ic : Nat => ⟨i3, i2, i1, ic⟩

def Call.expectedWrites (call : Call R) : List (ChunkWrite R) := call.chunks.map call.expected

/-- The op does what it is for: whatever the memory holds, every chunk is written once. -/
def Call.Transforms (call : Call R) : Prop :=
  ∀ blocks old, ∃ writes, allWrites (call.on blocks old) = some writes ∧
    writes.Perm (call.on blocks old).expectedWrites

/-- The sum of the chunks and the threads is an `int`, and if there is a chunk, blocks are not
larger than chunks and lie one after the other in a row. -/
def Call.Served (call : Call R) : Prop :=
  call.total + call.nth < 2 ^ 31 ∧ (call.total = 0 ∨ call.src.type.blckSize ∣ call.nh ∧
    (call.src.nb 0 = call.src.type.typeSize ∨ call.src.ne 0 = call.src.type.blckSize))

/-! ### Two ops one after the other -/

/-- The stores of a round. -/
def ChunkWrite.stores (w : ChunkWrite R) : List (Int × R) :=
  w.values.mapIdx fun i v => (w.y + (i : Int) * 4, v)

/-- The memory of the destination after a call: the threads store in any order. -/
def Call.Leaves (call : Call R) (memory : Int → R) : Prop :=
  ∃ writes stores, allWrites call = some writes ∧
    stores.Perm (writes.flatMap ChunkWrite.stores) ∧ memory = Stores.run stores call.old

/-- The strides that `ggml_new_tensor` gives a tensor of `f32`. -/
structure Tensor.Contiguous (t : Tensor) : Prop where
  nb0 : t.nb 0 = 4
  nb1 : t.nb 1 = t.nb 0 * t.ne 0
  nb2 : t.nb 2 = t.nb 1 * t.ne 1
  nb3 : t.nb 3 = t.nb 2 * t.ne 2

/-- The same op on the tensor that another call writes. -/
structure Call.Follows (again call : Call R) : Prop where
  accepted : again.Accepted
  src : again.src = call.dst
  nh : again.nh = call.nh
  ksqrt2 : again.ksqrt2 = call.ksqrt2
  dst : again.dst.Contiguous

end

end PxqLlama.Ggml
