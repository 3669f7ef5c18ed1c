import PxqLlama.Pxq.QuantizeTensor
import PxqLlama.Proofs.Pxq.RoundTrip
import PxqLlama.Lib.Ranges

/-!
# `Proofs.Pxq.Threads`: quantization does not depend on the threads

`tensorCall e p` is the panel `p` of expert `e`: its source rows, its bytes, its imatrix
columns and its absolute row. The serial branch quantizes these panels in order
(`quantizeTensorSerial_eq`), and so do the jobs one after the other
(`flatMap_quantizeTensorJob`): the chunks of an expert are its panels, whatever the
chunk length is. A finished pool has performed the events of the jobs in some order
(`WorkQueue.trace_perm`), and the order of the stores does not show in the bytes, since
the stores of the tensor agree (`Stores.run_perm`). So every row reads back as its
quantized values (`quantizeTensor_dequant`).
-/

namespace PxqLlama.Pxq

section
variable {F : Type} {T : SlabTier} (quant : QuantPanel F T) (A : TensorArgs F)

/-- The call of panel `p` of expert `e`. -/
def tensorCall (T : SlabTier) (e p : Nat) : PanelCall where
  src := e * (A.R * A.K) + p * 64 * A.K
  dst := A.dst + e * expBytes T A.R A.K + p * T.panelBytes (A.K / 32)
  imx := imxFor A e
  row := p * 64

/-- The panels of the tensor, expert by expert. -/
def tensorCalls (T : SlabTier) : List PanelCall :=
  (List.range A.E).flatMap fun e => (List.range (A.R / 64)).map (tensorCall A T e)

theorem quantizeTensorSerial_eq :
    quantizeTensorSerial quant A = (tensorCalls A T).flatMap (panelEvents quant A) := by
  rw [quantizeTensorSerial, tensorCalls, List.flatMap_assoc]
  refine List.flatMap_congr (fun e _ => ?_)
  rw [quantizeExpert, List.flatMap_map]
  refine List.flatMap_congr (fun p _ => ?_)
  rw [tensorCall, Nat.zero_add]

theorem CHUNK_pos (R E : Nat) (nthread : Int) : 0 < CHUNK R E nthread := by
  rw [CHUNK]
  omega

/-- The chunks of an expert reach its last panel. -/
theorem le_chunksPerE_mul (R E : Nat) (nthread : Int) :
    R / 64 ≤ chunksPerE R E nthread * CHUNK R E nthread := by
  have hpos := CHUNK_pos R E nthread
  simp only [chunksPerE]
  split
  · generalize CHUNK R E nthread = c at hpos
    have hdm := Nat.div_add_mod' (R / 64 + c - 1) c
    have hmod := Nat.mod_lt (R / 64 + c - 1) hpos
    omega
  · omega

/-- The panels of chunk `c` of expert `e`, for chunks of length `n`. -/
def chunkEvents (n e c : Nat) : List Event :=
  (List.range (min n (A.R / 64 - c * n))).flatMap fun i =>
    panelEvents quant A (tensorCall A T e (c * n + i))

/-- Job `j` quantizes a run of consecutive panels of one expert, each with the call that
the serial branch makes. -/
theorem quantizeTensorJob_eq (nthread : Int) (j : Nat) :
    quantizeTensorJob quant A nthread j
      = chunkEvents quant A (CHUNK A.R A.E nthread) (j / chunksPerE A.R A.E nthread)
        (j % chunksPerE A.R A.E nthread) := by
  simp only [quantizeTensorJob, quantizeExpert, chunkEvents,
    Nat.mul_div_cancel _ (show 0 < 64 by decide)]
  generalize j / chunksPerE A.R A.E nthread = e
  generalize j % chunksPerE A.R A.E nthread * CHUNK A.R A.E nthread = p0
  refine List.flatMap_congr (fun i hi => ?_)
  -- The chunk holds a panel, so the expert has panels and `panel_bytes` is a panel's size.
  have hpanels : 0 < A.R / 64 := by
    have := List.mem_range.mp hi
    omega
  have hbytes : expBytes T A.R A.K / (A.R / 64) = T.panelBytes (A.K / 32) :=
    Nat.mul_div_cancel_left _ hpanels
  rw [if_pos hpanels, hbytes, tensorCall]
  congr 2
  · rw [Nat.add_mul p0 i 64, Nat.add_mul _ _ A.K, Nat.add_assoc]
  · rw [Nat.add_mul p0 i, Nat.add_assoc]
  · rw [Nat.add_mul]

/-- The jobs one after the other are the serial branch. -/
theorem flatMap_quantizeTensorJob (nthread : Int) :
    (List.range (nJobs A.R A.E nthread)).flatMap (quantizeTensorJob quant A nthread)
      = quantizeTensorSerial quant A := by
  rw [List.flatMap_congr (fun j _ => quantizeTensorJob_eq quant A nthread j), nJobs,
    RangeChunks.flatMap_range_div_mod _ _ (chunkEvents quant A (CHUNK A.R A.E nthread)),
    quantizeTensorSerial_eq, tensorCalls, List.flatMap_assoc]
  refine List.flatMap_congr (fun e _ => ?_)
  simp only [chunkEvents]
  rw [RangeChunks.flatMap_range_chunks (le_chunksPerE_mul A.R A.E nthread)
    (fun p => panelEvents quant A (tensorCall A T e p)), List.flatMap_map]

/-- Whatever the number of threads and their order, the trace is a permutation of the
serial one. -/
theorem QuantizeTensor.perm {nthread : Int} {trace : List Event}
    (h : QuantizeTensor quant A nthread trace) :
    trace.Perm (quantizeTensorSerial quant A) := by
  rw [QuantizeTensor] at h
  split at h
  · exact List.Perm.of_eq h
  · rename_i hcond
    obtain ⟨s, hreach, hdone, rfl⟩ := h
    have hworkers : 0 < min nthread.toNat (nJobs A.R A.E nthread) := by omega
    have hperm := WorkQueue.trace_perm hworkers hreach hdone
    rwa [flatMap_quantizeTensorJob] at hperm

theorem exists_quantizeTensor (nthread : Int) :
    ∃ trace, QuantizeTensor quant A nthread trace := by
  by_cases hcond : nthread ≤ 1 ∨ nJobs A.R A.E nthread ≤ 1
  · exact ⟨_, by rw [QuantizeTensor, if_pos hcond]⟩
  · obtain ⟨s, hreach, hdone⟩ := WorkQueue.exists_done (nJobs A.R A.E nthread)
      (quantizeTensorJob quant A nthread)
      (WorkQueue.start (min nthread.toNat (nJobs A.R A.E nthread)))
    exact ⟨s.trace, by rw [QuantizeTensor, if_neg hcond]; exact ⟨s, hreach, hdone, rfl⟩⟩

/-! ### The panels and the stores of the serial trace -/

theorem panelCalls_panelEvents (call : PanelCall) :
    panelCalls (panelEvents quant A call) = [call] := by
  simp [panelCalls, panelEvents, List.filterMap_map]

theorem eventStores_panelEvents (call : PanelCall) :
    eventStores (panelEvents quant A call)
      = scatterPanel T (A.K / 32) call.dst (panelCodes quant A call) := by
  simp [eventStores, panelEvents, List.filterMap_map]

theorem panelCalls_serial :
    panelCalls (quantizeTensorSerial quant A) = tensorCalls A T := by
  have h : ∀ call, (panelEvents quant A call).filterMap _ = [call] :=
    panelCalls_panelEvents quant A
  rw [quantizeTensorSerial_eq, panelCalls, List.filterMap_flatMap,
    List.flatMap_congr (fun call _ => h call), List.flatMap_singleton']

/-- Panel `n / P, n % P` of the tensor, when every expert has `P` panels. -/
theorem tensorCalls_eq_map :
    tensorCalls A T = (List.range (A.E * (A.R / 64))).map fun n =>
      tensorCall A T (n / (A.R / 64)) (n % (A.R / 64)) := by
  rw [List.map_eq_flatMap, RangeChunks.flatMap_range_div_mod _ _ fun e p =>
    [tensorCall A T e p], tensorCalls]
  exact List.flatMap_congr (fun e _ => List.map_eq_flatMap)

/-- The panels lie one after the other in the output. -/
theorem tensorCall_dst (n : Nat) :
    (tensorCall A T (n / (A.R / 64)) (n % (A.R / 64))).dst
      = A.dst + n * T.panelBytes (A.K / 32) := by
  show A.dst + n / (A.R / 64) * (A.R / 64 * T.panelBytes (A.K / 32))
    + n % (A.R / 64) * T.panelBytes (A.K / 32) = _
  rw [Nat.add_assoc, ← Nat.mul_assoc, ← Nat.add_mul, Nat.div_add_mod']

theorem tensorCalls_nodup : (tensorCalls A T).Nodup := by
  rw [tensorCalls_eq_map]
  refine List.Nodup.map_on (fun n _ n' _ heq => ?_) List.nodup_range
  have hdst := congrArg PanelCall.dst heq
  rw [tensorCall_dst, tensorCall_dst] at hdst
  exact Nat.eq_of_mul_eq_mul_right (T.panelBytes_pos (A.K / 32)) (by omega)

/-- The rows of the whole tensor, panel after panel. -/
def tensorRows (row : Nat) : RowCodes T.bookSize :=
  let n := row / 64
  panelCodes quant A (tensorCall A T (n / (A.R / 64)) (n % (A.R / 64))) (row % 64)

/-- The stores of the tensor are those of one expert that holds all of its panels. -/
theorem eventStores_serial :
    eventStores (quantizeTensorSerial quant A)
      = scatterExpert T A.dst (A.E * (A.R / 64) * 64) A.K (tensorRows quant A) := by
  have h : ∀ call, (panelEvents quant A call).filterMap _
      = scatterPanel T (A.K / 32) call.dst (panelCodes quant A call) :=
    eventStores_panelEvents quant A
  rw [quantizeTensorSerial_eq, eventStores, List.filterMap_flatMap,
    List.flatMap_congr (fun call _ => h call), tensorCalls_eq_map, List.flatMap_map,
    scatterExpert, Nat.mul_div_cancel _ (by decide)]
  refine List.flatMap_congr (fun n _ => ?_)
  rw [tensorCall_dst, scatterPanel, scatterPanel]
  refine List.flatMap_congr (fun r hr => ?_)
  have hdm := SlabTier.mul_add_div_mod (q := n) (List.mem_range.mp hr)
  rw [tensorRows, hdm.1, hdm.2]

/-- **One panel, once, at its place.** Every trace of `nthread` threads searches the panels
of the tensor, each exactly once and with the call of the serial branch, and its stores
leave the memory that one thread leaves. -/
theorem QuantizeTensor.same_bytes {nthread : Int} {trace : List Event}
    (h : QuantizeTensor quant A nthread trace) (m : Nat → UInt8) {trace₁ : List Event}
    (h₁ : QuantizeTensor quant A 1 trace₁) :
    Stores.run (eventStores trace) m = Stores.run (eventStores trace₁) m := by
  have hagree := scatterExpert_agree T A.dst (A.E * (A.R / 64) * 64) A.K (tensorRows quant A)
  rw [← eventStores_serial quant A] at hagree
  rw [QuantizeTensor, if_pos (Or.inl (Int.le_refl 1))] at h₁
  have hperm : (eventStores (quantizeTensorSerial quant A)).Perm (eventStores trace) :=
    (h.perm.filterMap _).symm
  rw [h₁, ← Stores.run_perm hagree hperm m]

end

/-- The output of a call does not depend on the number of threads or on their order: the
call can run, and every run of it quantizes each panel of each expert exactly once, with
the serial branch's source offset, byte address, imatrix columns and absolute row, and
leaves the bytes of `nthread = 1`. -/
structure ThreadIndependent {F : Type} (A : TensorArgs F) (T : SlabTier)
    (run : Int → List Event → Prop) : Prop where
  exists_run : ∀ nthread, ∃ trace, run nthread trace
  panels : ∀ nthread trace, run nthread trace →
    (tensorCalls A T).Nodup ∧ (panelCalls trace).Perm (tensorCalls A T)
  bytes : ∀ nthread trace trace₁, run nthread trace → run 1 trace₁ →
    ∀ m, Stores.run (eventStores trace) m = Stores.run (eventStores trace₁) m

theorem threadIndependent_quantizeTensor {F : Type} (A : TensorArgs F) {T : SlabTier}
    (quant : QuantPanel F T) : ThreadIndependent A T (QuantizeTensor quant A) where
  exists_run := exists_quantizeTensor quant A
  panels nthread trace h := by
    have hperm : (panelCalls trace).Perm (panelCalls (quantizeTensorSerial quant A)) :=
      h.perm.filterMap _
    rw [panelCalls_serial] at hperm
    exact ⟨tensorCalls_nodup A, hperm⟩
  bytes nthread trace trace₁ h h₁ m := h.same_bytes quant A m h₁

/-- **Thread-count independence** of the PXQ quantizers, for every panel search, every
tensor, every number of threads and every order of the workers. -/
theorem quantize_tensor_thread_independent {F : Type} (A : TensorArgs F) :
    (∀ tier quant, ThreadIndependent A (pxq6Tier tier) (pxq6QuantizeTensor A tier quant)) ∧
    (∀ quant, ThreadIndependent A pxq2Tier (pxq2QuantizeTensor A quant)) ∧
    (∀ quant, ThreadIndependent A pxq3Tier (pxq3QuantizeTensor A quant)) ∧
    (∀ quant, ThreadIndependent A pxq6rTier (pxq6rQuantizeTensor A quant)) ∧
    (∀ quant, ThreadIndependent A pxq1Tier (pxq1QuantizeTensor A quant)) :=
  ⟨fun _ quant => threadIndependent_quantizeTensor A quant,
    fun quant => threadIndependent_quantizeTensor A quant,
    fun quant => threadIndependent_quantizeTensor A quant,
    fun quant => threadIndependent_quantizeTensor A quant,
    fun quant => threadIndependent_quantizeTensor A fun K rows imx _ => quant K rows imx⟩

/-! ### Quantized, and decoded again -/

/-- Whatever the number of threads and their order: row `row` of expert `e`, decoded from the bytes
that a call left, has the anchor, the sub indices and the codes that the search of its panel
found. -/
theorem quantizeTensor_dequant {F α : Type} [Mul α] (tabs : PxqTables α) (t : PxqType)
    {A : TensorArgs F} (quant : QuantPanel F t.tier) (hK : 32 ∣ A.K) {nthread : Int}
    {trace : List Event} (h : QuantizeTensor quant A nthread trace) (m : Mem) {e row : Nat}
    (he : e < A.E) (hrow : row < A.R / 64 * 64) :
    ∃ out, pxaPxqDequantRow tabs t (Stores.run (eventStores trace) m)
        (A.dst + e * expBytes t.tier A.R A.K) row A.K = some out ∧
      ∀ j < A.K,
        let c := panelCodes quant A (tensorCall A t.tier e (row / 64)) (row % 64)
        out j = tabs.fp16ToFp32 c.anchor * tabs.sub t (c.s4 (j / t.tier.bs)).val
          * tabs.book t (c.codes j).val := by
  have hp : row / 64 < A.R / 64 := by omega
  -- the row among those of all experts
  have hdm := SlabTier.mul_add_div_mod (q := e) hp
  have hdm' := SlabTier.mul_add_div_mod (q := e * (A.R / 64) + row / 64)
    (Nat.mod_lt row (show 0 < 64 by decide))
  have hlt : (e * (A.R / 64) + row / 64) * 64 + row % 64 < A.E * (A.R / 64) * 64 / 64 * 64 := by
    have := SlabTier.mul_add_lt he hp
    omega
  refine pxaPxqDequantRow_eq tabs t hK fun l hl hlr => ?_
  have hstored := @rowStored_run_scatterExpert _ A.dst _ A.K _ (tensorRows quant A) m hlt l hl
    (hlr.trans hdm'.2.symm)
  rw [hdm'.1, tensorRows, hdm'.1, hdm'.2, hdm.1, hdm.2, ← eventStores_serial] at hstored
  have hserial : QuantizeTensor quant A 1 (quantizeTensorSerial quant A) := by
    rw [QuantizeTensor, if_pos (Or.inl (Int.le_refl 1))]
  rw [h.same_bytes quant A m hserial, ← hstored, expBytes]
  congr 1
  ring

/-- Row 5 of the second of two 64 × 32 PXQ3 experts, quantized by four threads with codes that
count the columns, and decoded with tables that return `index + 1`. -/
theorem quantizeTensor_dequant_pxq3 :
    let tabs : PxqTables Nat :=
      ⟨UInt16.toNat, (· + 1), (· + 1), (· + 1), (· + 1), (· + 1), (· + 1), (· + 1)⟩
    let quant : QuantPanel Nat pxq3Tier := fun _ _ _ row r =>
      ⟨UInt16.ofNat (row + r), fun b => Fin.ofNat 16 b, fun j => Fin.ofNat 8 j⟩
    let A : TensorArgs Nat := ⟨id, 0, 64, 32, 2, none, 0, false, fun _ _ => false⟩
    ∃ trace out, QuantizeTensor quant A 4 trace ∧
      pxaPxqDequantRow tabs .pxq3 (Stores.run (eventStores trace) fun _ => 0)
        (0 + 1 * expBytes pxq3Tier 64 32) 5 32 = some out ∧ out 23 = 5 * 2 * 8 := by
  intro tabs quant A
  obtain ⟨trace, htrace⟩ := exists_quantizeTensor quant A 4
  obtain ⟨out, hout, hval⟩ := @quantizeTensor_dequant _ _ _ tabs .pxq3 A quant (by decide) 4 trace
    htrace (fun _ => 0) 1 5 (by decide) (by decide)
  exact ⟨trace, out, htrace, hout, hval 23 (by decide)⟩

end PxqLlama.Pxq
