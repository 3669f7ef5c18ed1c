import Mathlib.Algebra.BigOperators.Ring.List
import PxqLlama.Proofs.Kv.RestoreTrace

/-!
# `Proofs.Kv.StateFile`: the serializers agree

The three writers read one walk, so they agree when each call of it has the same bytes for the
buffer and for the file (`savesAgree_iff`). Where these come from a tensor, the buffer and the
file disagree about a type with row headers, which only the buffer refuses, and about a split
recurrent state, for which the file looks up weights that a recurrent layer does not have. All
else is an assertion that both trip (`WriteOp.Agrees`).

The two readers are one reader behind two doors. Only one of the doors asks for the sliding
cache, and so does only one of the writers.
-/

namespace PxqLlama.Kv

open Rows Wire

/-! ### One call -/

/-- The assertions about a gather hold. -/
structure Gathers (type : TensorType) (plan : SplitPlan) (offset size : Nat) : Prop where
  rowSize_ne : type.rowSize plan.ne ≠ 0
  offset_mod : offset % type.rowSize plan.ne = 0
  size_mod : size % type.rowSize plan.ne = 0
  fits : ∀ slice ∈ plan.slices, slice.tensor.type = type ∧
    slice.tensor.inBounds (offset / type.rowSize plan.ne * slice.rowSize type)
      (slice.rowSize type * (size / type.rowSize plan.ne)) = true
  sum : (plan.slices.map fun slice => slice.rowSize type * (size / type.rowSize plan.ne)).sum
    = size

variable {type : TensorType} {plan : SplitPlan}

theorem gatherRows_of_gathers {offset size : Nat} (h : Gathers type plan offset size)
    (mem : Nat → Nat → UInt8) :
    gatherRows mem type plan offset size = .ok
      ((List.range' (offset / type.rowSize plan.ne) (size / type.rowSize plan.ne)).flatMap
        fun i => plan.slices.flatMap fun slice => row (mem slice.dev) (slice.rowSize type) i) := by
  rw [gatherRows]
  simp only
  rw [if_neg (by simp [h.rowSize_ne, h.offset_mod, h.size_mod]), if_pos]
  refine ⟨?_, h.sum⟩
  rw [List.all_eq_true]
  intro slice hslice
  obtain ⟨htype, hfits⟩ := h.fits slice hslice
  rw [Bool.and_eq_true, decide_eq_true_iff]
  exact ⟨htype, hfits⟩

theorem gathers_of_gatherRows {offset size : Nat} {mem : Nat → Nat → UInt8} {bytes : List UInt8}
    (h : gatherRows mem type plan offset size = .ok bytes) : Gathers type plan offset size := by
  rw [gatherRows] at h
  simp only at h
  split at h
  · cases h
  · rename_i hrows
    split at h
    · rename_i hfits
      simp only [not_or, not_not] at hrows
      refine ⟨hrows.1, hrows.2.1, hrows.2.2, fun slice hslice => ?_, hfits.2⟩
      have hslice' := List.all_eq_true.mp hfits.1 slice hslice
      rwa [Bool.and_eq_true, decide_eq_true_iff] at hslice'
    · cases h

/-- A gather fills the size that it was asked for. -/
theorem length_gatherRows {offset size : Nat} {mem : Nat → Nat → UInt8} {bytes : List UInt8}
    (h : gatherRows mem type plan offset size = .ok bytes) : bytes.length = size := by
  have hgathers := gathers_of_gatherRows h
  rw [gatherRows_of_gathers hgathers mem] at h
  have hsum := hgathers.sum
  cases h
  have hrow : ∀ i, (plan.slices.flatMap fun slice =>
      row (mem slice.dev) (slice.rowSize type) i).length
        = (plan.slices.map (·.rowSize type)).sum := by
    intro i
    simp [List.length_flatMap]
  rw [List.length_flatMap]
  simp only [hrow, List.map_const', List.sum_replicate, List.length_range']
  rw [List.sum_map_mul_right] at hsum
  rw [Nat.mul_comm] at hsum
  exact hsum

/-- The buffer and the file have the same bytes for a range of a tensor: it is in bounds; or it
is gathered from slices of rows without headers, that are not of recurrent state, and the
assertions about them hold; or the first device of an MLA model has it. -/
def WriteOp.Agrees (shape : KvShape) : WriteOp → Prop
  | .write _ => True
  | .tensorData _ t offset size il =>
    match t.extra with
    | none => t.toGgmlTensor.inBounds offset size = true
    | some splits =>
      t.type.rowMetaSize = 0 ∧ ∃ l, shape.layers[il]? = some l ∧
        if shape.isMla then
          ∃ slice, (devSlices splits fun _ slice => slice.ne0).head? = some slice ∧
            slice.tensor.inBounds offset size = true
        else
          l.recurrent = false ∧
            ∃ plan, splitPlan l t splits = some plan ∧ Gathers t.type plan offset size

/-- A recurrent layer has no weights of keys and values, as `llama-load-tensors.cpp` makes it. -/
def KvShape.Loaded (shape : KvShape) : Prop :=
  ∀ l ∈ shape.layers, l.recurrent = true → l.wk = none ∧ l.wv = none

section
variable {shape : KvShape} {mem : TensorMem} {op : WriteOp} {bytes : List UInt8}

/-- A write appends as many bytes as it announces. -/
theorem length_bytes (h : op.bytes shape mem = .ok bytes) : bytes.length = op.size := by
  cases op with
  | write bs =>
    cases h
    rfl
  | tensorData part t offset size il =>
    rw [WriteOp.bytes] at h
    split at h
    · rw [getTensorDataSplit] at h
      split at h
      · cases h
      · split at h
        · cases h
        · split at h
          · split at h
            · cases h
            · split at h
              · cases h
                exact length_slice
              · cases h
          · split at h
            · cases h
            · exact length_gatherRows h
    · split at h
      · cases h
        exact length_slice
      · cases h

/-- A recurrent layer has no plan for the weights. -/
theorem splitPlan_file_none (hloaded : shape.Loaded) {il : Nat} {l : Layer}
    (hl : shape.layers[il]? = some l) (hrec : l.recurrent = true) (t : CacheTensor)
    (splits : List (Option GgmlTensor)) :
    splitPlan { l with recurrent := false } t splits = none := by
  obtain ⟨hwk, hwv⟩ := hloaded l (List.mem_of_getElem? hl) hrec
  rw [splitPlan, if_neg (by simp)]
  have hnone : getKvCacheSplitTensor t { l with recurrent := false } = none := by
    rw [getKvCacheSplitTensor]
    simp only [hwv, hwk]
  rw [hnone]

/-- The two writers have the same bytes exactly when they agree. -/
theorem agrees_iff (hloaded : shape.Loaded) (mem : TensorMem) (op : WriteOp) :
    op.Agrees shape ↔
      ∃ bytes, op.bytes shape mem = .ok bytes ∧ op.fileBytes shape mem = .ok bytes := by
  cases op with
  | write bs => exact ⟨fun _ => ⟨bs, rfl, rfl⟩, fun _ => trivial⟩
  | tensorData part t offset size il =>
    rw [WriteOp.Agrees, WriteOp.bytes, WriteOp.fileBytes]
    cases hextra : t.extra with
    | none =>
      simp only
      by_cases hfits : t.toGgmlTensor.inBounds offset size = true
      · simp only [hfits, if_true, Except.ok.injEq, and_self, exists_eq']
      · simp [hfits]
    | some splits =>
      simp only [getTensorDataSplit, getTensorDataSplitFile]
      by_cases hmeta : t.type.rowMetaSize = 0
      · rw [if_neg (by omega), and_iff_right hmeta]
        cases hl : shape.layers[il]? with
        | none => simp
        | some l =>
          simp only [Option.some.injEq, exists_eq_left']
          by_cases hmla : shape.isMla = true
          · simp only [hmla, if_true]
            cases hhead : (devSlices splits fun _ slice => slice.ne0).head? with
            | none => simp
            | some slice =>
              simp only [Option.some.injEq, exists_eq_left']
              by_cases hfits : slice.tensor.inBounds offset size = true
              · simp only [hfits, if_true, Except.ok.injEq, and_self, exists_eq']
              · simp [hfits]
          · simp only [hmla, Bool.false_eq_true, if_false]
            by_cases hrec : l.recurrent = true
            · -- the file has no plan for the slices
              rw [splitPlan_file_none hloaded hl hrec]
              simp [hrec]
            · rw [Bool.not_eq_true] at hrec
              have hsame : { l with recurrent := false } = l := by rw [← hrec]
              rw [hsame, and_iff_right hrec]
              cases hplan : splitPlan l t splits with
              | none => simp
              | some plan =>
                simp only [Option.some.injEq, exists_eq_left']
                refine ⟨fun h => ⟨_, gatherRows_of_gathers h _, gatherRows_of_gathers h _⟩, ?_⟩
                rintro ⟨bytes, hbytes, -⟩
                exact gathers_of_gatherRows hbytes
      · -- only the buffer refuses the row headers
        rw [if_pos (by omega)]
        simp [hmeta]

/-- So does the writer to a file. -/
theorem length_fileBytes (h : op.fileBytes shape mem = .ok bytes) : bytes.length = op.size := by
  cases op with
  | write bs =>
    cases h
    rfl
  | tensorData part t offset size il =>
    rw [WriteOp.fileBytes] at h
    split at h
    · rw [getTensorDataSplitFile] at h
      split at h
      · cases h
      · split at h
        · split at h
          · cases h
          · split at h
            · cases h
              exact length_slice
            · cases h
        · split at h
          · cases h
          · exact length_gatherRows h
    · split at h
      · cases h
        exact length_slice
      · cases h

/-- A file is never refused: only assertions fail. -/
theorem fileBytes_ne_thrown (op : WriteOp) : op.fileBytes shape mem ≠ .error .thrown := by
  cases op with
  | write bs => simp [WriteOp.fileBytes]
  | tensorData part t offset size il =>
    have hgather : ∀ mem plan, gatherRows mem t.type plan offset size ≠ .error .thrown := by
      intro mem plan
      rw [gatherRows]
      simp only
      split
      · simp
      · split <;> simp
    rw [WriteOp.fileBytes]
    split
    · rw [getTensorDataSplitFile]
      split
      · simp
      · split
        · split
          · simp
          · split <;> simp
        · split
          · simp
          · exact hgather _ _
    · split <;> simp

end

/-! ### The whole walk -/

section
variable {shape : KvShape} {mem : TensorMem} {ops : List WriteOp} {bytes : List UInt8}
  {f g : WriteOp → Except WriteFailure (List UInt8)}

theorem collect_cons_ok {op : WriteOp} :
    collect f (op :: ops) = .ok bytes ↔
      ∃ b rest, f op = .ok b ∧ collect f ops = .ok rest ∧ bytes = b ++ rest := by
  rw [collect]
  constructor
  · intro h
    split at h
    · cases h
    · rename_i b hb
      split at h
      · cases h
      · rename_i rest hrest
        cases h
        exact ⟨b, rest, hb, hrest, rfl⟩
  · rintro ⟨b, rest, hb, hrest, rfl⟩
    rw [hb, hrest]

/-- Two readings of a walk agree when each call has the same bytes. -/
theorem collect_agree_iff (hf : ∀ op b, f op = .ok b → b.length = op.size)
    (hg : ∀ op b, g op = .ok b → b.length = op.size) :
    (∃ bytes, collect f ops = .ok bytes ∧ collect g ops = .ok bytes) ↔
      ∀ op ∈ ops, ∃ b, f op = .ok b ∧ g op = .ok b := by
  induction ops with
  | nil => simp [collect]
  | cons op ops ih =>
    simp only [collect_cons_ok, List.forall_mem_cons]
    rw [← ih]
    constructor
    · rintro ⟨bytes, ⟨b, rest, hb, hrest, rfl⟩, b', rest', hb', hrest', heq⟩
      -- the calls have the same size, so the bytes come apart in the same place
      obtain ⟨rfl, rfl⟩ := List.append_inj heq ((hf op b hb).trans (hg op b' hb').symm)
      exact ⟨⟨b, hb, hb'⟩, rest, hrest, hrest'⟩
    · rintro ⟨⟨b, hb, hb'⟩, rest, hrest, hrest'⟩
      exact ⟨b ++ rest, ⟨b, rest, hb, hrest, rfl⟩, b, rest, hb', hrest', rfl⟩

/-- The operations write as many bytes as they announce. -/
theorem length_collect (hf : ∀ op b, f op = .ok b → b.length = op.size)
    (h : collect f ops = .ok bytes) : bytes.length = (ops.map WriteOp.size).sum := by
  induction ops generalizing bytes with
  | nil =>
    cases h
    rfl
  | cons op ops ih =>
    obtain ⟨b, rest, hb, hrest, rfl⟩ := collect_cons_ok.mp h
    rw [List.length_append, List.map_cons, List.sum_cons, hf op b hb, ih hrest]

theorem collect_ne_thrown (hf : ∀ op, f op ≠ .error .thrown) : collect f ops ≠ .error .thrown := by
  induction ops with
  | nil => simp [collect]
  | cons op ops ih =>
    rw [collect]
    cases hop : f op with
    | error e =>
      rintro ⟨⟩
      exact hf op hop
    | ok b =>
      simp only
      cases hops : collect f ops with
      | error e =>
        rintro ⟨⟩
        exact ih hops
      | ok rest => simp

/-- With room for all of it, the buffer gets the bytes of each call. -/
theorem writeAll_eq_collect {room : Nat} (hroom : (ops.map WriteOp.size).sum ≤ room) :
    writeAll shape mem room ops = collect (WriteOp.bytes shape mem) ops := by
  induction ops generalizing room with
  | nil => rfl
  | cons op ops ih =>
    rw [List.map_cons, List.sum_cons] at hroom
    have hfits : ¬ room < op.size := by omega
    have hrest : writeAll shape mem (room - op.size) ops
        = collect (WriteOp.bytes shape mem) ops := ih (by omega)
    cases hop : op.bytes shape mem <;>
      cases hops : collect (WriteOp.bytes shape mem) ops <;>
      simp [writeAll, collect, hfits, hrest, hop, hops]

end

/-! ### The saves -/

/-- The size, the buffer and the file: all succeed with the same bytes, or all refuse. The buffer
has room for the size. -/
def SavesAgree (st : StateCtx) (s : Int) (tokens : List Int) : Prop :=
  (∃ bytes, bytes ≠ [] ∧ llamaStateSeqGetSize st s false = bytes.length ∧
      (∀ room, bytes.length ≤ room → llamaStateSeqGetData st room s false = some bytes) ∧
      llamaStateSeqSaveFile st s tokens = some (fileHeader tokens ++ bytes)) ∨
    (llamaStateSeqGetSize st s false = 0 ∧
      (∀ room, llamaStateSeqGetData st room s false = some []) ∧
      llamaStateSeqSaveFile st s tokens = some [])

/-- The sliding cache is not armed, and the writers agree about each range of the walk. -/
def SavesCleanly (st : StateCtx) (s : Int) : Prop :=
  st.ctx.swaKvActive = false ∧
    ∀ op ∈ writeKvCacheOps st.shape st.ctx.kvSelf s false, op.Agrees st.shape

theorem fileHeader_ne_nil (tokens : List Int) : fileHeader tokens ≠ [] := by
  simp [fileHeader, encode]

/-- All writers agree exactly when the range of the sequence is saved cleanly. -/
theorem savesAgree_iff {st : StateCtx} (hloaded : st.shape.Loaded) (s : Int)
    (tokens : List Int) : SavesAgree st s tokens ↔ SavesCleanly st s := by
  have hfile := @collect_ne_thrown (writeKvCacheOps st.shape st.ctx.kvSelf s false)
    (WriteOp.fileBytes st.shape st.mem) fileBytes_ne_thrown
  have hagree := @collect_agree_iff (writeKvCacheOps st.shape st.ctx.kvSelf s false)
    (WriteOp.bytes st.shape st.mem) (WriteOp.fileBytes st.shape st.mem)
    (fun _ _ => length_bytes) (fun _ _ => length_fileBytes)
  simp only [← agrees_iff hloaded] at hagree
  rw [SavesCleanly, ← hagree]
  constructor
  · rintro (⟨bytes, hne, hsize, hdata, hsave⟩ | ⟨-, -, hsave⟩)
    · have hidle : st.ctx.swaKvActive = false := by
        by_contra hswa
        rw [llamaStateSeqGetSize, if_pos (by simpa using hswa)] at hsize
        exact hne (List.length_eq_zero_iff.mp hsize.symm)
      rw [llamaStateSeqGetSize, if_neg (by simp [hidle])] at hsize
      have hdata := hdata _ (Nat.le_refl _)
      rw [llamaStateSeqGetData, if_neg (by simp [hidle]),
        writeAll_eq_collect (Nat.le_of_eq hsize)] at hdata
      rw [llamaStateSeqSaveFile] at hsave
      refine ⟨hidle, bytes, ?_, ?_⟩
      · split at hdata
        · rename_i b hb
          cases hdata
          exact hb
        · exact absurd (Option.some.inj hdata).symm hne
        · cases hdata
      · split at hsave
        · rename_i b hb
          rw [hb, List.append_cancel_left (Option.some.inj hsave)]
        · rename_i hthrown
          exact absurd hthrown hfile
        · cases hsave
    · -- the file is never refused
      rw [llamaStateSeqSaveFile] at hsave
      split at hsave
      · have hnil := List.append_eq_nil_iff.mp (Option.some.inj hsave)
        exact absurd hnil.1 (fileHeader_ne_nil tokens)
      · rename_i hthrown
        exact absurd hthrown hfile
      · cases hsave
  · rintro ⟨hidle, bytes, hbuffer, hsaved⟩
    have hsize := length_collect (fun _ _ => length_bytes) hbuffer
    left
    refine ⟨bytes, ?_, ?_, fun room hroom => ?_, ?_⟩
    · rintro rfl
      rw [writeKvCacheOps, List.map_cons, List.sum_cons, WriteOp.size, length_encode,
        List.length_nil] at hsize
      omega
    · rw [llamaStateSeqGetSize, if_neg (by simp [hidle]), hsize]
    · rw [llamaStateSeqGetData, if_neg (by simp [hidle]), writeAll_eq_collect (hsize ▸ hroom),
        hbuffer]
    · rw [llamaStateSeqSaveFile, hsaved]

/-! ### The loads -/

/-- A token list as a file can hold it. -/
structure FileTokens (tokens : List Int) (capacity : Nat) : Prop where
  fits : tokens.length ≤ capacity
  length_lt : tokens.length < 2 ^ 32
  int32 : ∀ t ∈ tokens, -(2 ^ 31) ≤ t ∧ t < 2 ^ 31

/-- A blob that `llama_state_seq_set_data` accepts is accepted from a file, with the same
effect. -/
def LoadsAgree (st : StateCtx) : Prop :=
  ∀ (blob : List UInt8) (d : Int) (n : Nat) (r : ReadState), 0 ≤ d → 0 < n →
    llamaStateSeqSetData st blob d false = some (n, r) →
    ∀ tokens capacity, FileTokens tokens capacity →
      llamaStateSeqLoadFile st (fileHeader tokens ++ blob) d capacity
        = some ⟨(fileHeader tokens).length + n, tokens, r⟩

theorem length_flatMap_encodeInt (tokens : List Int) :
    (tokens.flatMap (encodeInt 4)).length = 4 * tokens.length := by
  induction tokens with
  | nil => rfl
  | cons t tokens ih =>
    rw [List.flatMap_cons, List.length_append, ih, length_encodeInt, List.length_cons]
    omega

theorem length_fileHeader (tokens : List Int) :
    (fileHeader tokens).length = 12 + 4 * tokens.length := by
  simp only [fileHeader, List.length_append, length_encode, length_flatMap_encodeInt]

/-- The tokens are read back. -/
theorem readTokens_flatMap {tokens : List Int} {capacity : Nat} (h : FileTokens tokens capacity)
    (rest : List UInt8) :
    readTokens tokens.length (tokens.flatMap (encodeInt 4) ++ rest) = tokens := by
  apply List.ext_getElem
  · rw [readTokens, List.length_map, List.length_range]
  · intro i hi hi'
    have hchunk : chunk (tokens.flatMap (encodeInt 4) ++ rest) 4 i = encodeInt 4 tokens[i] := by
      rw [← chunk_flatMap (fun t _ => length_encodeInt 4 t) hi', chunk, chunk,
        List.drop_append_of_le_length (by rw [length_flatMap_encodeInt]; omega),
        List.take_append_of_le_length (by rw [List.length_drop, length_flatMap_encodeInt]; omega)]
    obtain ⟨hlo, hhi⟩ := h.int32 _ (List.getElem_mem hi')
    simp only [readTokens, List.getElem_map, List.getElem_range, hchunk]
    exact decodeInt_encodeInt (by omega) (by omega)

/-- The readers agree on every state and every bytes. -/
theorem loadsAgree (st : StateCtx) : LoadsAgree st := by
  intro blob d n r hd hn hset tokens capacity htokens
  -- behind the header the file is the blob
  have hlength : (fileHeader tokens ++ blob).length = 12 + 4 * tokens.length + blob.length := by
    rw [List.length_append, length_fileHeader]
  have hparts : fileHeader tokens ++ blob = encode 4 llamaStateSeqMagic ++
      (encode 4 llamaStateSeqVersion ++ (encode 4 tokens.length ++
        (tokens.flatMap (encodeInt 4) ++ blob))) := by
    simp only [fileHeader, List.append_assoc]
  have hword : ∀ (k : Nat) (bs : List UInt8), (encode 4 k ++ bs).take 4 = encode 4 k ∧
      (encode 4 k ++ bs).drop 4 = bs := fun k bs =>
    ⟨List.take_left' (length_encode 4 k), List.drop_left' (length_encode 4 k)⟩
  have hmagic : decode ((fileHeader tokens ++ blob).take 4) = llamaStateSeqMagic := by
    rw [hparts, (hword _ _).1]
    rfl
  have hdrop4 : (fileHeader tokens ++ blob).drop 4 = encode 4 llamaStateSeqVersion ++
      (encode 4 tokens.length ++ (tokens.flatMap (encodeInt 4) ++ blob)) := by
    rw [hparts, (hword _ _).2]
  have hversion : decode (((fileHeader tokens ++ blob).drop 4).take 4) = llamaStateSeqVersion := by
    rw [hdrop4, (hword _ _).1]
    rfl
  have hdrop8 : (fileHeader tokens ++ blob).drop 8 = encode 4 tokens.length ++
      (tokens.flatMap (encodeInt 4) ++ blob) := by
    rw [show 8 = 4 + 4 from rfl, ← List.drop_drop, hdrop4, (hword _ _).2]
  have hcount : decode (((fileHeader tokens ++ blob).drop 8).take 4) = tokens.length := by
    rw [hdrop8, (hword _ _).1]
    exact decode_encode htokens.length_lt
  have hdrop12 : (fileHeader tokens ++ blob).drop 12 = tokens.flatMap (encodeInt 4) ++ blob := by
    rw [show 12 = 8 + 4 from rfl, ← List.drop_drop, hdrop8, (hword _ _).2]
  have hbody : (fileHeader tokens ++ blob).drop (12 + 4 * tokens.length) = blob :=
    List.drop_left' (length_fileHeader tokens)
  -- a call that reads something reads it to the end
  obtain ⟨rest, hread, hrest⟩ : ∃ rest,
      readKvCacheBytes st.shape ⟨st.ctx, st.mem⟩ d false blob = .done rest r ∧
        n = blob.length - rest.length := by
    rw [llamaStateSeqSetData] at hset
    split at hset
    · cases hset
      omega
    · cases ho : readKvCacheBytes st.shape ⟨st.ctx, st.mem⟩ d false blob with
      | done rest r' =>
        simp only [ho, Option.some.injEq, Prod.mk.injEq] at hset
        obtain ⟨rfl, rfl⟩ := hset
        exact ⟨rest, rfl, rfl⟩
      | refused r' =>
        simp only [ho, Option.some.injEq, Prod.mk.injEq] at hset
        omega
      | thrown r' =>
        simp only [ho, Option.some.injEq, Prod.mk.injEq] at hset
        omega
      | aborted => simp only [ho, reduceCtorEq] at hset
  have hfits := htokens.fits
  simp only [llamaStateSeqLoadFile, hmagic, hversion, hcount, hbody, hread, hdrop12,
    readTokens_flatMap htokens, hlength, length_fileHeader]
  rw [if_neg (by omega), if_neg (by simp), if_neg (by omega), if_neg (by omega),
    if_neg (by omega), if_neg (by omega), if_pos (by omega)]
  congr 2
  omega

/-! ### All of them -/

/-- The serializers agree exactly when the sliding cache is not armed, no split tensor with row
headers or of recurrent state is written, and the assertions about the ranges hold. -/
theorem serializers_agree_iff (st : StateCtx) (hloaded : st.shape.Loaded) (s : Int)
    (tokens : List Int) : (SavesAgree st s tokens ∧ LoadsAgree st) ↔ SavesCleanly st s := by
  rw [and_iff_left (loadsAgree st)]
  exact savesAgree_iff hloaded s tokens

/-- A hybrid model with split mode `graph`: the keys and values of the attention layer lie in slices
on two devices, the state of the recurrent layer on one. A cell holds sequence 0 at position 5, and
the other one is free. -/
def splitHybrid : StateCtx where
  ctx := { twoCells.ctx with
    kvSelf := { llamaKvCacheInit false true 1 2 with
      used := 1
      cells := fun i => if i = 0 then { pos := 5, seqId := {0} } else { src := i } } }
  shape := {
    layers := [
      { k := some { type := .f16, ne0 := 2, ne1 := 2, extra := some [some ⟨.f16, 1, 2⟩,
          some ⟨.f16, 1, 2⟩] }
        v := some { type := .f16, ne0 := 4, ne1 := 1, extra := some [some ⟨.f16, 2, 1⟩,
          some ⟨.f16, 2, 1⟩] }
        nEmbdKGqa := 2
        nEmbdHeadK := 1
        vRowEmbd := 2
        wk := some ⟨2, some [some 1, some 1]⟩
        wv := some ⟨2, some [some 1, some 1]⟩ },
      { s := some { type := .f32, ne0 := 3, ne1 := 1 }
        recurrent := true }] }
  -- every device has bytes of its own
  mem := fun id i => UInt8.ofNat (100 * id.il + 10 * id.dev.getD 7 + i)
  head_le := Nat.zero_le _
  slots := rfl

theorem loaded_splitHybrid : splitHybrid.shape.Loaded := by
  intro l hl hrec
  rcases List.mem_pair.mp hl with rfl | rfl
  · cases hrec
  · exact ⟨rfl, rfl⟩

/-- The row of the cell comes from both devices, and the recurrent state is read behind it. -/
theorem serializers_agree_splitHybrid : SavesAgree splitHybrid 0 [] ∧ LoadsAgree splitHybrid := by
  refine (serializers_agree_iff splitHybrid loaded_splitHybrid 0 []).mpr ⟨rfl, ?_⟩
  have hsame : ((writeKvCacheOps splitHybrid.shape splitHybrid.ctx.kvSelf 0 false).all fun op =>
      match op.bytes splitHybrid.shape splitHybrid.mem,
        op.fileBytes splitHybrid.shape splitHybrid.mem with
      | .ok bytes, .ok bytes' => decide (bytes = bytes')
      | _, _ => false) = true := by decide +kernel
  intro op hop
  have hbytes := List.all_eq_true.mp hsame op hop
  apply (agrees_iff loaded_splitHybrid splitHybrid.mem op).mpr
  split at hbytes
  · rename_i bytes bytes' hbuffer hfile
    obtain rfl := of_decide_eq_true hbytes
    exact ⟨bytes, hbuffer, hfile⟩
  · cases hbytes

-- the row of keys, and the row of state at the end
example : (llamaStateSeqGetData splitHybrid 200 0 false).map
      (fun bytes => ((bytes.drop 32).take 4, bytes.drop 112)) =
    some ([0, 1, 10, 11], (List.range 12).map fun i => UInt8.ofNat (170 + i)) := by
  decide +kernel

/-- The context of two cells with the sliding cache armed. -/
def armedCells : StateCtx :=
  { twoCells with ctx := { twoCells.ctx with swaKvActive := true } }

/-- The file is written although the other two refuse. -/
theorem armed_file_is_written : ¬ (SavesAgree armedCells 0 [] ∧ LoadsAgree armedCells) := by
  rintro ⟨⟨bytes, hne, hsize, -⟩ | ⟨-, -, hsave⟩, -⟩
  · exact hne (List.length_eq_zero_iff.mp hsize.symm)
  · revert hsave
    decide +kernel

end PxqLlama.Kv
