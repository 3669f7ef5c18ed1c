import PxqLlama.Lib.TopSelect
import Mathlib.Algebra.Order.Floor.Ring
import Mathlib.Data.List.Dedup

/-!
# `Sampling.Samplers`: samplers over an array of candidates

A sampler takes an array of tokens with their logits and leaves one with fewer or other entries.
Numbers are exact: the elements of an ordered field. `expf`, `logf`, the random engine and the
sorting algorithms of the standard library belong to the `Host`, and of the last only their contract
is known.

The samplers that sort do so lazily: `sorted` says that the array is sorted, and then it is left as
it is.
-/

namespace PxqLlama.Sampling

open TopSelect

/-- `llama_token`; -1 is `LLAMA_TOKEN_NULL`. -/
abbrev LlamaToken := Int

def llamaTokenNull : LlamaToken := -1

/-- `llama_token_data`. -/
structure TokenData (α : Type) where
  id : LlamaToken
  logit : α
  p : α
deriving DecidableEq

/-- `llama_token_data_array`: the first `size` elements of `data`. -/
structure TokenDataArray (α : Type) where
  data : List (TokenData α)
  selected : Int := 0
  sorted : Bool := false
deriving DecidableEq

/-- What the samplers use of the standard library, and the random engine with its state `σ`. -/
structure Host (α σ : Type) [LinearOrder α] where
  expf : α → α
  logf : α → α
  /-- Stands for `-INFINITY`. -/
  negInfinity : α
  algos : SortAlgorithms (TokenData.logit : TokenData α → α)
  /-- `PXA_TOPK_PARTIAL`. -/
  topkPartial : Bool
  rng : σ → Nat × σ
  rngMax : Nat

variable {α σ : Type} [Field α] [LinearOrder α] [FloorRing α]

/-! ### Sorting -/

/-- A conversion to `int`: towards zero. -/
def truncate (x : α) : Int := if 0 ≤ x then ⌊x⌋ else ⌈x⌉

def nbuckets : Nat := 128

/-- The bucket of a logit, by `bucket_low`, `bucket_high` and `bucket_scale`. -/
def bucketIndex (val : α) : Nat :=
  let bucketLow : α := -10
  let bucketHigh : α := 10
  let bucketScale : α := nbuckets / (bucketHigh - bucketLow)
  let bucketInter : α := -bucketLow * bucketScale
  (max 0 (min ((nbuckets : Int) - 1) (truncate (bucketScale * val + bucketInter)))).toNat

/-- The bucket in which the `k`th largest logit is. -/
def cutBucket (histo : Nat → Nat) (k : Nat) : (ib nhave : Nat) → Nat
  | 0, _ => 0
  | ib + 1, nhave =>
    if k ≤ nhave + histo (ib + 1) then ib + 1 else cutBucket histo k ib (nhave + histo (ib + 1))

/-- The buckets above `ib` up to one, sorted, from the highest to the lowest. -/
def bucketsAbove (sort : List (TokenData α) → List (TokenData α))
    (bucket : Nat → List (TokenData α)) (ib : Nat) : (j : Nat) → List (TokenData α)
  | 0 => []
  | j + 1 => if ib < j + 1 then sort (bucket (j + 1)) ++ bucketsAbove sort bucket ib j else []

/-- The branch of `llama_sort` for a large `k`: what is behind the first `k` elements stays. -/
def bucketSort (h : Host α σ) (k : Nat) (data : List (TokenData α)) : List (TokenData α) :=
  let bucket := fun j => data.filter fun d => bucketIndex d.logit = j
  let ib := cutBucket (fun j => (bucket j).length) k (nbuckets - 1) 0
  let above := bucketsAbove h.algos.sort bucket ib (nbuckets - 1)
  let tmpTokens := above ++ h.algos.partialSort (k - above.length) (bucket ib)
  tmpTokens.take k ++ data.drop k

/-- `llama_sort`: the first `k` are in their places, all for a negative `k`. -/
def llamaSort (h : Host α σ) (candidates : TokenDataArray α) (k : Int) : TokenDataArray α :=
  let size := candidates.data.length
  if candidates.sorted ∨ size < 2 then candidates
  else
    let k := if k < 0 then size else k.toNat
    let data :=
      if k ≤ 1024 then
        if k = size then h.algos.sort candidates.data
        else if h.topkPartial then
          let data := h.algos.nthElement k candidates.data
          h.algos.sort (data.take k) ++ data.drop k
        else h.algos.partialSort k candidates.data
      else bucketSort h k candidates.data
    { candidates with data := data, sorted := true }

/-! ### Samplers -/

/-- `llama_sample_softmax_impl`. -/
def softmax (h : Host α σ) (candidates : TokenDataArray α) (normalize : Bool) : TokenDataArray α :=
  let candidates := llamaSort h candidates (-1)
  let maxL := (candidates.data.head?.map TokenData.logit).getD 0
  let data := candidates.data.map fun d => { d with p := h.expf (d.logit - maxL) }
  let cumSum := data.foldl (fun cumSum d => cumSum + d.p) 0
  { candidates with
    data := if normalize then data.map fun d => { d with p := d.p / cumSum } else data }

/-- `llama_sample_dist`. -/
def sampleDist (h : Host α σ) (candidates : TokenDataArray α) : TokenDataArray α :=
  softmax h candidates false

/-- `llama_sample_top_k_impl`. -/
def sampleTopK (h : Host α σ) (candidates : TokenDataArray α) (k : Int) (minKeep : Nat) :
    TokenDataArray α :=
  let size := candidates.data.length
  let k := if k ≤ 0 then (size : Int) else k
  let k := min (max k minKeep) size
  let candidates := llamaSort h candidates k
  { candidates with data := candidates.data.take k.toNat }

/-- The loop of `llama_sample_top_p_impl`: how many tokens it keeps. -/
def topPCut (p : α) (minKeep : Nat) : List (TokenData α) → (i : Nat) → (cumSum : α) → Nat
  | [], i, _ => i
  | d :: ds, i, cumSum =>
    if p ≤ cumSum + d.p ∧ minKeep ≤ i + 1 then i + 1 else topPCut p minKeep ds (i + 1) (cumSum + d.p)

/-- `llama_sample_top_p_impl`. -/
def sampleTopP (h : Host α σ) (candidates : TokenDataArray α) (p : α) (minKeep : Nat) :
    TokenDataArray α :=
  if 1 ≤ p then candidates
  else
    let candidates := softmax h candidates true
    { candidates with data := candidates.data.take (topPCut p minKeep candidates.data 0 0) }

/-- The number `2` of a field is a numeral. -/
theorem atLeastTwo_two : Nat.AtLeastTwo 2 := inferInstance

def fltMax : α := (2 ^ 24 - 1) * 2 ^ 104

/-- The loop of `llama_sample_min_p_impl` over sorted candidates: how many it keeps. -/
def minPCut (minLogit : α) (minKeep : Nat) : List (TokenData α) → (i : Nat) → Nat
  | [], i => i
  | d :: ds, i =>
    if d.logit < minLogit ∧ minKeep ≤ i then i else minPCut minLogit minKeep ds (i + 1)

/-- `llama_sample_min_p_impl`: without sorting where enough candidates are left so. -/
def sampleMinP (h : Host α σ) (candidates : TokenDataArray α) (p : α) (minKeep : Nat) :
    TokenDataArray α :=
  if p ≤ 0 ∨ candidates.data = [] then candidates
  else
    let maxLogit := candidates.data.foldl (fun maxLogit d => max maxLogit d.logit) (-fltMax)
    let filtered := candidates.data.filter fun d => maxLogit + h.logf p ≤ d.logit
    if ¬ candidates.sorted ∧ minKeep ≤ filtered.length then { candidates with data := filtered }
    else
      let candidates := llamaSort h candidates (-1)
      let minLogit := (candidates.data.head?.map TokenData.logit).getD 0 + h.logf p
      { candidates with
        data := candidates.data.take (minPCut minLogit minKeep candidates.data.tail 1) }

/-- `llama_sample_temp_impl`. -/
def sampleTemp (candidates : TokenDataArray α) (temp : α) : TokenDataArray α :=
  { candidates with data := candidates.data.map fun d => { d with logit := d.logit / temp } }

/-! ### Repetition penalties -/

/-- The tokens of a window with how often each occurs: `token_count`. -/
def tokenCount (lastTokens : List LlamaToken) : List (LlamaToken × Nat) :=
  lastTokens.dedup.map fun token => (token, lastTokens.count token)

/-- The penalised logit of a token that occurs `count` times. -/
def penalize (penaltyRepeat penaltyFreq penaltyPresent : α) (count : Nat) (logit : α) : α :=
  (if logit ≤ 0 then logit * penaltyRepeat else logit / penaltyRepeat) -
    (count * penaltyFreq + (if 0 < count then 1 else 0) * penaltyPresent)

/-- `llama_sample_repetition_penalties_impl`: by index where each token stands at its own, otherwise
by a scan. -/
def sampleRepetitionPenalties (candidates : TokenDataArray α) (lastTokens : List LlamaToken)
    (penaltyRepeat penaltyFreq penaltyPresent : α) : TokenDataArray α :=
  if lastTokens = [] ∨ (penaltyRepeat = 1 ∧ penaltyFreq = 0 ∧ penaltyPresent = 0) then candidates
  else
    let counts := tokenCount lastTokens
    let penalized := fun (count : Nat) (d : TokenData α) =>
      { d with logit := penalize penaltyRepeat penaltyFreq penaltyPresent count d.logit }
    let identity := counts.all fun kv =>
      0 ≤ kv.1 ∧ (candidates.data[kv.1.toNat]?.map TokenData.id) = some kv.1
    let data :=
      if identity then
        counts.foldl (fun data kv => data.modify kv.1.toNat (penalized kv.2)) candidates.data
      else
        candidates.data.map fun d =>
          match counts.find? fun kv => kv.1 = d.id with
          | none => d
          | some kv => penalized kv.2 d
    { candidates with data := data, sorted := false }

/-! ### Tokens -/

/-- `std::max_element`: the first of the largest. -/
def maxElement : List (TokenData α) → Option (TokenData α)
  | [] => none
  | d :: ds => some (ds.foldl (fun best d => if best.logit < d.logit then d else best) d)

/-- `llama_sample_token_greedy_impl`; `none` where it reads behind an empty array. -/
def sampleTokenGreedy (candidates : TokenDataArray α) : Option LlamaToken :=
  (maxElement candidates.data).map TokenData.id

/-- The sums of the weights up to each candidate. -/
def runningSums (h : Host α σ) (max : α) : List (TokenData α) → (sump : α) → List α
  | [], _ => []
  | d :: ds, sump =>
    let sump := sump + h.expf (d.logit - max)
    sump :: runningSums h max ds sump

/-- `llama_sample_token_with_rng_impl`, with `last_softfailed`. -/
def sampleTokenWithRng (h : Host α σ) (candidates : TokenDataArray α) (rng : σ) :
    Option LlamaToken × σ × Bool :=
  let data := candidates.data
  if data.length < 2 then (data.head?.map TokenData.id, rng, false)
  else
    let first := (data.head?.map TokenData.logit).getD 0
    let max := data.tail.foldl (fun m d => max m d.logit) first
    let sums := runningSums h max data 0
    let sump := sums.getLast?.getD 0
    let probs := sums.dropLast ++ [sump + sump]
    let (r, rng) := h.rng rng
    let p := sump * r / h.rngMax
    match probs.findIdx? fun prob => p < prob with
    | some idx => (data[idx]?.map TokenData.id, rng, false)
    | none => ((maxElement data).map TokenData.id, rng, true)

end PxqLlama.Sampling
