import PxqLlama.Server.TokenOps

/-!
# `Proofs.Server.TokenMedia`: the media of a token list

A token list is well formed (`WellFormed`) when its null tokens are the runs of its chunks. Two
well-formed lists one behind the other are a well-formed list (`WellFormed.append`), and so are the
two parts of a list that is cut where no chunk is cut (`WellFormed.upTo`, `WellFormed.beyond`).
Every operation that keeps the media map in step with the tokens is a case of these: a pushed
chunk is a list of its own, and `discard_n_tokens` puts the first part of a list in front of the
last one.
-/

namespace PxqLlama.Server

namespace ServerTokens

/-- A place is in the run of some chunk. -/
def InRun (m : OrderedMap InputChunk) (i : Nat) : Prop :=
  ∃ p ∈ m.entries, p.1 ≤ i ∧ i < p.1 + p.2.nTokens

/-- The null tokens are the disjoint runs of the chunks, all of them inside the list. -/
structure WellFormed (s : ServerTokens) : Prop where
  inside : ∀ p ∈ s.mapIdxToMedia.entries, p.1 + p.2.nTokens ≤ s.size
  disjoint : ∀ p ∈ s.mapIdxToMedia.entries, ∀ q ∈ s.mapIdxToMedia.entries, p.1 < q.1 →
    p.1 + p.2.nTokens ≤ q.1
  nulls : ∀ i, s.tokens[i]? = some llamaTokenNull ↔ InRun s.mapIdxToMedia i

/-- Every insertion into the media map asserts `has_mtmd`. -/
def MediaAllowed (s : ServerTokens) : Prop :=
  s.hasMtmd = true ∨ s.mapIdxToMedia.entries = []

/-- No chunk begins in front of the place `n` and ends behind it. -/
def ChunkBoundary (s : ServerTokens) (n : Nat) : Prop :=
  ∀ p ∈ s.mapIdxToMedia.entries, p.1 < n → p.1 + p.2.nTokens ≤ n

/-! ### Appending -/

theorem shiftMedia_ordered (start : Nat) (m : OrderedMap InputChunk) :
    (shiftMedia start m.entries).Pairwise fun a b => a.1 < b.1 := by
  rw [shiftMedia, List.pairwise_map]
  exact m.ordered.imp fun h => Nat.add_lt_add_left h start

variable {p : Nat × InputChunk} {s : ServerTokens} {n : Nat}

theorem mem_shiftMedia {start : Nat} {entries : List (Nat × InputChunk)} :
    p ∈ shiftMedia start entries ↔ ∃ q ∈ entries, p = (start + q.1, q.2) := by
  rw [shiftMedia, List.mem_map]
  constructor
  · intro h
    obtain ⟨q, hq, heq⟩ := h
    exact ⟨q, hq, heq.symm⟩
  · intro h
    obtain ⟨q, hq, heq⟩ := h
    exact ⟨q, hq, heq.symm⟩

/-- The list `b` behind the list `a`. -/
def append (a b : ServerTokens) : ServerTokens :=
  { a with
    tokens := a.tokens ++ b.tokens
    mapIdxToMedia := a.mapIdxToMedia.insertAll (shiftMedia a.size b.mapIdxToMedia.entries) }

theorem size_append (a b : ServerTokens) : (a.append b).size = a.size + b.size :=
  List.length_append

theorem mem_append {a b : ServerTokens} :
    p ∈ (a.append b).mapIdxToMedia.entries ↔
      (∃ q ∈ b.mapIdxToMedia.entries, p = (a.size + q.1, q.2)) ∨
      (p ∈ a.mapIdxToMedia.entries ∧ ∀ q ∈ b.mapIdxToMedia.entries, p.1 ≠ a.size + q.1) := by
  show p ∈ (a.mapIdxToMedia.insertAll _).entries ↔ _
  rw [OrderedMap.mem_insertAll (shiftMedia_ordered _ _), mem_shiftMedia]
  apply or_congr_right
  apply and_congr_right
  intro _
  constructor
  · intro h q hq
    exact h _ (mem_shiftMedia.mpr ⟨q, hq, rfl⟩)
  · intro h q hq
    obtain ⟨r, hr, heq⟩ := mem_shiftMedia.mp hq
    exact heq ▸ h r hr

/-- The runs of the list `b` behind the list `a`. An entry of `a` that gives way to one of `b` lies
at the end of `a`, so its run is empty. -/
theorem inRun_append {a b : ServerTokens} (ha : a.WellFormed) {i : Nat} :
    InRun (a.append b).mapIdxToMedia i ↔
      InRun a.mapIdxToMedia i ∨ (a.size ≤ i ∧ InRun b.mapIdxToMedia (i - a.size)) := by
  constructor
  · intro h
    obtain ⟨p, hp, hle, hlt⟩ := h
    rcases mem_append.mp hp with ⟨q, hq, heq⟩ | ⟨hp, -⟩
    · subst heq
      simp only at hle hlt
      exact Or.inr ⟨by omega, q, hq, by omega, by omega⟩
    · exact Or.inl ⟨p, hp, hle, hlt⟩
  · intro h
    rcases h with ⟨p, hp, hle, hlt⟩ | ⟨hsize, q, hq, hle, hlt⟩
    · have hin := ha.inside p hp
      exact ⟨p, mem_append.mpr (Or.inr ⟨hp, fun q _ => by omega⟩), hle, hlt⟩
    · refine ⟨_, mem_append.mpr (Or.inl ⟨q, hq, rfl⟩), ?_, ?_⟩
      · show a.size + q.1 ≤ i
        omega
      · show i < a.size + q.1 + q.2.nTokens
        omega

/-- Two well-formed lists, one behind the other, are a well-formed list. -/
theorem WellFormed.append {a b : ServerTokens} (ha : a.WellFormed) (hb : b.WellFormed) :
    (a.append b).WellFormed where
  inside := by
    intro p hp
    rw [size_append]
    rcases mem_append.mp hp with ⟨q, hq, heq⟩ | ⟨hp, -⟩
    · have hin := hb.inside q hq
      subst heq
      show a.size + q.1 + q.2.nTokens ≤ _
      omega
    · have hin := ha.inside p hp
      omega
  disjoint := by
    intro p hp q hq hlt
    rcases mem_append.mp hp with ⟨p', hp', heq⟩ | ⟨hp, -⟩
    · subst heq
      rcases mem_append.mp hq with ⟨q', hq', heq⟩ | ⟨hq, -⟩
      · have hend := hb.disjoint p' hp' q' hq'
        subst heq
        simp only at hlt ⊢
        omega
      · have hin := ha.inside q hq
        simp only at hlt
        omega
    · rcases mem_append.mp hq with ⟨q', hq', heq⟩ | ⟨hq, -⟩
      · have hin := ha.inside p hp
        subst heq
        simp only
        omega
      · exact ha.disjoint p hp q hq hlt
  nulls := by
    intro i
    rw [inRun_append ha, ← ha.nulls, ← hb.nulls]
    show (a.tokens ++ b.tokens)[i]? = _ ↔ _
    rcases Nat.lt_or_ge i a.size with hlt | hge
    · rw [List.getElem?_append_left hlt]
      constructor
      · exact Or.inl
      · intro h
        exact h.resolve_right fun h => by omega
    · rw [List.getElem?_append_right hge]
      constructor
      · intro h
        exact Or.inr ⟨hge, h⟩
      · intro h
        apply (h.resolve_left _).2
        rw [List.getElem?_eq_none hge]
        exact fun h => nomatch h

/-- Text alone is well formed. -/
theorem wellFormed_text (hasMtmd : Bool) {text : List Int} (htext : llamaTokenNull ∉ text) :
    WellFormed { hasMtmd := hasMtmd, tokens := text } where
  inside := fun _ hp => nomatch hp
  disjoint := fun _ hp => nomatch hp
  nulls := by
    intro i
    constructor
    · intro h
      exact absurd (List.mem_of_getElem? h) htext
    · intro h
      obtain ⟨_, hp, -⟩ := h
      exact nomatch hp

theorem append_text (a : ServerTokens) (hasMtmd : Bool) (text : List Int) :
    a.append { hasMtmd := hasMtmd, tokens := text } = { a with tokens := a.tokens ++ text } := rfl

/-- So is a chunk of media alone. -/
theorem wellFormed_media (hasMtmd : Bool) (chunk : InputChunk) :
    WellFormed {
      hasMtmd := hasMtmd
      mapIdxToMedia := OrderedMap.empty.insert 0 chunk
      tokens := List.replicate chunk.nTokens llamaTokenNull } where
  inside := by
    intro p hp
    obtain rfl := List.mem_singleton.mp hp
    show 0 + chunk.nTokens ≤ (List.replicate chunk.nTokens llamaTokenNull).length
    rw [List.length_replicate, Nat.zero_add]
  disjoint := by
    intro p hp q hq hlt
    obtain rfl := List.mem_singleton.mp hp
    obtain rfl := List.mem_singleton.mp hq
    exact absurd hlt (Nat.lt_irrefl _)
  nulls := by
    intro i
    show (List.replicate chunk.nTokens llamaTokenNull)[i]? = _ ↔ _
    rw [List.getElem?_replicate]
    constructor
    · intro h
      split at h
      · rename_i hlt
        exact ⟨(0, chunk), List.mem_singleton.mpr rfl, Nat.zero_le i, by simpa using hlt⟩
      · exact nomatch h
    · intro h
      obtain ⟨p, hp, -, hlt⟩ := h
      obtain rfl := List.mem_singleton.mp hp
      rw [if_pos (by simpa using hlt)]

theorem append_media (a : ServerTokens) (hasMtmd : Bool) (chunk : InputChunk) :
    a.append {
      hasMtmd := hasMtmd
      mapIdxToMedia := OrderedMap.empty.insert 0 chunk
      tokens := List.replicate chunk.nTokens llamaTokenNull } = { a with
        tokens := a.tokens ++ List.replicate chunk.nTokens llamaTokenNull
        mapIdxToMedia := a.mapIdxToMedia.insert a.size chunk } := rfl

/-! ### Cutting -/

/-- The first `n` tokens and their media. -/
def upTo (s : ServerTokens) (n : Nat) : ServerTokens :=
  { s with mapIdxToMedia := s.mapIdxToMedia.below n, tokens := s.tokens.take n }

/-- The tokens behind the first `n`, and their media. -/
def beyond (s : ServerTokens) (n : Nat) : ServerTokens :=
  { s with
    tokens := s.tokens.drop n
    mapIdxToMedia := OrderedMap.empty.insertAll
      ((s.mapIdxToMedia.entries.filter (n ≤ ·.1)).map fun p => (p.1 - n, p.2)) }

theorem beyond_ordered (m : OrderedMap InputChunk) (n k : Nat) (hk : k ≤ n) :
    ((m.entries.filter (n ≤ ·.1)).map fun p => (p.1 - k, p.2)).Pairwise
      fun a b => a.1 < b.1 := by
  rw [List.pairwise_map, List.pairwise_filter]
  apply m.ordered.imp
  intro p q hlt hp _
  have hle : n ≤ p.1 := of_decide_eq_true hp
  show p.1 - k < q.1 - k
  omega

theorem beyond_entries (s : ServerTokens) (n : Nat) :
    (s.beyond n).mapIdxToMedia.entries =
      (s.mapIdxToMedia.entries.filter (n ≤ ·.1)).map fun p => (p.1 - n, p.2) :=
  OrderedMap.insertAll_append (m := OrderedMap.empty)
    (beyond_ordered s.mapIdxToMedia n n (Nat.le_refl n))

theorem mem_beyond :
    p ∈ (s.beyond n).mapIdxToMedia.entries ↔ (p.1 + n, p.2) ∈ s.mapIdxToMedia.entries := by
  rw [beyond_entries, List.mem_map]
  constructor
  · intro h
    obtain ⟨q, hq, heq⟩ := h
    obtain ⟨hq, hle⟩ := List.mem_filter.mp hq
    have hle : n ≤ q.1 := of_decide_eq_true hle
    subst heq
    simp only [Nat.sub_add_cancel hle]
    exact hq
  · intro h
    refine ⟨_, List.mem_filter.mpr ⟨h, decide_eq_true (Nat.le_add_left n p.1)⟩, ?_⟩
    simp only [Nat.add_sub_cancel]

/-- A cut at a chunk boundary keeps the part before it well formed. -/
theorem WellFormed.upTo (hs : s.WellFormed) (hcut : s.ChunkBoundary n) : (s.upTo n).WellFormed where
  inside := by
    intro p hp
    obtain ⟨hp, hlt⟩ := OrderedMap.mem_below.mp hp
    have hend := hcut p hp hlt
    show _ ≤ (s.tokens.take n).length
    rw [List.length_take]
    exact Nat.le_min.mpr ⟨hend, hs.inside p hp⟩
  disjoint := by
    intro p hp q hq
    exact hs.disjoint p (OrderedMap.mem_below.mp hp).1 q (OrderedMap.mem_below.mp hq).1
  nulls := by
    intro i
    show (s.tokens.take n)[i]? = _ ↔ _
    rw [List.getElem?_take]
    constructor
    · intro h
      split at h
      · rename_i hi
        obtain ⟨p, hp, hle, hlt⟩ := (hs.nulls i).mp h
        exact ⟨p, OrderedMap.mem_below.mpr ⟨hp, by omega⟩, hle, hlt⟩
      · exact nomatch h
    · intro h
      obtain ⟨p, hp, hle, hlt⟩ := h
      obtain ⟨hp, hkey⟩ := OrderedMap.mem_below.mp hp
      have hend := hcut p hp hkey
      rw [if_pos (by omega)]
      exact (hs.nulls i).mpr ⟨p, hp, hle, hlt⟩

/-- And the part behind it. -/
theorem WellFormed.beyond (hs : s.WellFormed) (hcut : s.ChunkBoundary n) :
    (s.beyond n).WellFormed where
  inside := by
    intro p hp
    have hin : p.1 + n + p.2.nTokens ≤ s.size := hs.inside _ (mem_beyond.mp hp)
    show _ ≤ (s.tokens.drop n).length
    rw [List.length_drop]
    show p.1 + p.2.nTokens ≤ s.size - n
    omega
  disjoint := by
    intro p hp q hq hlt
    have hend := hs.disjoint _ (mem_beyond.mp hp) _ (mem_beyond.mp hq)
      (Nat.add_lt_add_right hlt n)
    simp only at hend
    omega
  nulls := by
    intro i
    show (s.tokens.drop n)[i]? = _ ↔ _
    rw [List.getElem?_drop, hs.nulls]
    constructor
    · intro h
      obtain ⟨p, hp, hle, hlt⟩ := h
      -- The chunk begins behind the cut, since it does not end in front of it.
      have hkey : n ≤ p.1 := by
        by_contra hkey
        have hend := hcut p hp (by omega)
        omega
      refine ⟨(p.1 - n, p.2), mem_beyond.mpr ?_, ?_, ?_⟩
      · simp only [Nat.sub_add_cancel hkey]
        exact hp
      · show p.1 - n ≤ i
        omega
      · show i < p.1 - n + p.2.nTokens
        omega
    · intro h
      obtain ⟨p, hp, hle, hlt⟩ := h
      refine ⟨_, mem_beyond.mp hp, ?_, ?_⟩
      · show p.1 + n ≤ n + i
        omega
      · show n + i < p.1 + n + p.2.nTokens
        omega

/-! ### `keep_first` and `discard_n_tokens` -/

/-- `keep_first` throws exactly where it would cut a chunk. -/
theorem keepFirst_eq (hs : s.WellFormed) (hmedia : s.MediaAllowed) (hn : n < s.size) :
    (s.ChunkBoundary n ∧ s.keepFirst n = some (s.upTo n)) ∨
      (¬ s.ChunkBoundary n ∧ s.keepFirst n = none) := by
  rw [keepFirst, if_neg (Nat.not_lt.mpr (Nat.le_of_lt hn))]
  have hnull : s.tokens.getD n 0 = llamaTokenNull ↔ InRun s.mapIdxToMedia n := by
    rw [← hs.nulls, List.getD_eq_getElem?_getD, List.getElem?_eq_getElem hn]
    exact Option.some_inj.symm
  by_cases hmtmd : s.hasMtmd = true
  · rw [if_pos hmtmd, if_neg (Nat.ne_of_lt hn)]
    split
    · rename_i hthrow
      obtain ⟨hrun, hfind⟩ := hthrow
      obtain ⟨p, hp, hle, hlt⟩ := hnull.mp hrun
      refine Or.inr ⟨fun hcut => ?_, rfl⟩
      -- The chunk of this place does not begin here.
      rcases Nat.eq_or_lt_of_le hle with heq | hbefore
      · rw [findChunk, ← heq, OrderedMap.find_eq_some.mpr hp] at hfind
        exact nomatch hfind
      · have hend := hcut p hp hbefore
        omega
    · rename_i hkeep
      refine Or.inl ⟨fun p hp hbefore => ?_, rfl⟩
      by_contra hend
      have hrun : InRun s.mapIdxToMedia n := ⟨p, hp, Nat.le_of_lt hbefore, by omega⟩
      obtain ⟨chunk, hchunk⟩ : ∃ chunk, s.findChunk n = some chunk := by
        apply Option.ne_none_iff_exists'.mp
        exact fun hnone => hkeep ⟨hnull.mpr hrun, hnone⟩
      have hdis := hs.disjoint p hp _ (OrderedMap.find_eq_some.mp hchunk) hbefore
      exact hend hdis
  · have hempty : s.mapIdxToMedia.entries = [] := hmedia.resolve_left hmtmd
    rw [if_neg hmtmd]
    refine Or.inl ⟨fun p hp => ?_, ?_⟩
    · rw [hempty] at hp
      exact nomatch hp
    · have hbelow : s.mapIdxToMedia.below n = s.mapIdxToMedia := by
        apply OrderedMap.ext
        show s.mapIdxToMedia.entries.filter _ = _
        rw [hempty]
        rfl
      rw [upTo, hbelow]

/-- `discard_n_tokens` puts what is in front of the discarded tokens before what is behind them. -/
theorem discardNTokens_eq (hs : s.WellFormed) (hmedia : s.MediaAllowed) {nKeep nDiscard : Nat}
    (hkeep : s.ChunkBoundary nKeep) :
    s.discardNTokens nKeep nDiscard = some s ∨
      s.discardNTokens nKeep nDiscard =
        some ((s.upTo nKeep).append (s.beyond (nKeep + nDiscard))) := by
  rw [discardNTokens]
  split
  · exact Or.inl rfl
  · rename_i hsome
    have hlt : nKeep < s.size := by omega
    rcases keepFirst_eq hs hmedia hlt with ⟨-, heq⟩ | ⟨hno, -⟩
    · refine Or.inr ?_
      have hsize : (s.upTo nKeep).size = nKeep := by
        show (s.tokens.take nKeep).length = nKeep
        rw [List.length_take]
        exact Nat.min_eq_left (Nat.le_of_lt hlt)
      have hshift : shiftMedia nKeep (s.beyond (nKeep + nDiscard)).mapIdxToMedia.entries =
          (s.mapIdxToMedia.entries.filter (nKeep + nDiscard ≤ ·.1)).map
            fun p => (p.1 - nDiscard, p.2) := by
        rw [beyond_entries, shiftMedia, List.map_map]
        apply List.map_congr_left
        intro p hp
        have hle : nKeep + nDiscard ≤ p.1 := of_decide_eq_true (List.mem_filter.mp hp).2
        show (nKeep + (p.1 - (nKeep + nDiscard)), p.2) = _
        rw [show nKeep + (p.1 - (nKeep + nDiscard)) = p.1 - nDiscard by omega]
      rw [heq, append, hsize, hshift]
      rfl
    · exact absurd hkeep hno

end ServerTokens

end PxqLlama.Server
