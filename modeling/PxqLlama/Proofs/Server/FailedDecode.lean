import PxqLlama.Proofs.Kv.DecodeBatch
import PxqLlama.Proofs.Server.DecodePass

/-!
# `Proofs.Server.FailedDecode`: when the slots are honest after a pass

A pass is honest when no token was placed twice, and every position of a token list is held by one
cell. `honest_iff` says when it is:

* no window of group attention gets full (`WindowsOpen`), and drafts are verified when all of them
  are decoded (`DraftsFit`);
* each slot that is sampled keeps one cell for each position of its list (`KeepsAll`): no removal
  clears the sequence, and what a restored checkpoint removed is decoded again;
* no chunk is decoded again of which tokens were placed, no failure but a cancel ends the pass, and
  a slot that a cancel unwinds has a cell (`passEnd`).

The invariant of a pass is `Clean`: how far the batch is placed, and what the slots with tokens left
have. `Held` and `Broken` are the two ways in which the sampled slots can be; a broken slot stays
broken, unless a cancel cuts its list. `loopHonest` is the induction over the loop. What
a decode does to the list of cells is what `llama_decode` does to the cache (`llamaDecode_refines`).
-/

namespace PxqLlama.Server

/-! ### The invariant -/

variable {s : DecodeSlot}

section
variable {env : DecodeEnv} {batch cells₀ : List SeqPos} {slots₀ : List DecodeSlot}

/-- The state when the first `k` tokens of the batch are placed, each of them once. Of the token
lists it speaks for the slots that have tokens to decode. -/
structure Clean (batch cells₀ : List SeqPos) (slots₀ : List DecodeSlot) (k : Nat)
    (st : DecodePass) : Prop where
  groups : st.groups = []
  placed : st.placed = List.range k
  ids : st.slots.map DecodeSlot.id = slots₀.map DecodeSlot.id
  waiting : ∀ t ∈ batch.drop k, ∀ s ∈ st.slots, s.id = t.1 → ∀ p < s.size,
    (st.cells ++ batch.drop k).count (s.id, p) = 1
  before : ∀ c ∈ st.cells, ∀ t ∈ batch.drop k, c.1 = t.1 → c.2 < t.2
  /-- The slots that have tokens to decode are as they were. -/
  owned : ∀ t ∈ batch.drop k, ∃ s ∈ st.slots, s ∈ slots₀ ∧ s.id = t.1 ∧ t.2 < s.size ∧
    s.isProcessing = true
  kept : ∀ t ∈ batch.drop k, ∀ c, c.1 = t.1 →
    (c ∈ st.cells ↔ c ∈ cells₀ ∨ c ∈ batch.take k)
  last : ∀ s ∈ st.slots, s.processing = true → s.drafting = false → ∀ (j : Nat) t, k ≤ j →
    batch[j]? = some t → t.1 = s.id → (j : Int) ≤ s.iBatch
  idle : ∀ s ∈ slots₀, s.isProcessing = false → s ∈ st.slots ∧ s.id ∉ st.posted

/-- Each position of a token list has one cell, or is that of one token to decode. -/
def Held (batch : List SeqPos) (k : Nat) (st : DecodePass) : Prop :=
  ∀ s ∈ st.slots, ∀ p < s.size, (st.cells ++ batch.drop k).count (s.id, p) = 1

/-- A slot that was sampled and has no token to decode holds a position of its list not once. -/
def Broken (batch : List SeqPos) (k : Nat) (st : DecodePass) : Prop :=
  ∃ s ∈ st.slots, s.drafting = false ∧ s.iBatch = -1 ∧ (∀ t ∈ batch.drop k, t.1 ≠ s.id) ∧
    ∃ p < s.size, st.cells.count (s.id, p) ≠ 1

/-- A pass begins clean. -/
theorem PassStart.clean (h : PassStart batch cells₀ slots₀) :
    Clean batch cells₀ slots₀ 0 { cells := cells₀, slots := slots₀ } where
  groups := rfl
  placed := rfl
  ids := rfl
  waiting _ _ s hs _ := h.held s hs
  before := h.before
  owned t ht := by
    obtain ⟨s, hs, hrest⟩ := h.owned t ht
    exact ⟨s, hs, hs, hrest⟩
  kept t _ c _ := by simp
  last s hs hp hd j t _ := h.last s hs hp hd j t
  idle s hs _ := ⟨hs, by simp⟩

variable {k : Nat} {st : DecodePass} {tried : Bool}

/-- Slots with one id are one slot. -/
theorem Clean.slot_unique (h : Clean batch cells₀ slots₀ k st)
    (hids : (slots₀.map DecodeSlot.id).Nodup) {s' : DecodeSlot} (hs : s ∈ st.slots)
    (hs' : s' ∈ st.slots) (hid : s.id = s'.id) : s = s' := by
  rw [← h.ids] at hids
  exact List.inj_on_of_nodup_map hids hs hs' hid

theorem count_drop_eq_zero {s p : Nat} (h : ∀ t ∈ batch.drop k, t.1 ≠ s) :
    (batch.drop k).count (s, p) = 0 :=
  List.count_eq_zero.mpr fun hmem => h _ hmem rfl

/-- A slot is not both held and broken. -/
theorem Held.not_broken (h : Held batch k st) : ¬ Broken batch k st := by
  rintro ⟨s, hs, -, -, hnone, p, hp, hne⟩
  have hone := h s hs p hp
  rw [List.count_append, count_drop_eq_zero hnone, Nat.add_zero] at hone
  exact hne hone

theorem take_append_drop_drop (batch : List SeqPos) (k n : Nat) :
    (batch.drop k).take n ++ batch.drop (k + n) = batch.drop k := by
  rw [← List.drop_drop, List.take_append_drop]

variable {n fuel : Nat} {nBatch : Int}

theorem mem_drop_of_mem_drop {t : SeqPos} (ht : t ∈ batch.drop (k + n)) : t ∈ batch.drop k := by
  rw [← take_append_drop_drop batch k n]
  exact List.mem_append_right _ ht

/-- Placing a chunk in order keeps it clean. -/
theorem Clean.place (h : Clean batch cells₀ slots₀ k st)
    (hordered : batch.Pairwise fun a b => a.1 = b.1 → a.2 < b.2) :
    Clean batch cells₀ slots₀ (k + n) (st.place batch k n) := by
  have hsplit := take_append_drop_drop batch k n
  refine ⟨h.groups, ?_, h.ids, fun t ht s hs hid p hp => ?_, fun c hc t ht hct => ?_,
    fun t ht => h.owned t (mem_drop_of_mem_drop ht), fun t ht c hct => ?_,
    fun s hs hp hd j t hj => h.last s hs hp hd j t (by omega), h.idle⟩
  · rw [DecodePass.place, h.placed, List.range_add]
  · rw [DecodePass.place, List.append_assoc, hsplit]
    exact h.waiting t (mem_drop_of_mem_drop ht) s hs hid p hp
  · rcases List.mem_append.mp hc with hc | hc
    · exact h.before c hc t (mem_drop_of_mem_drop ht) hct
    · -- the tokens of a slot are in order
      have hpair := hordered.sublist (List.drop_sublist k batch)
      rw [← hsplit, List.pairwise_append] at hpair
      exact hpair.2.2 c hc t ht hct
  · rw [DecodePass.place, List.mem_append, h.kept t (mem_drop_of_mem_drop ht) c hct, or_assoc,
      List.take_add, List.mem_append]

theorem Held.place (h : Held batch k st) : Held batch (k + n) (st.place batch k n) := by
  intro s hs p hp
  rw [DecodePass.place, List.append_assoc, take_append_drop_drop]
  exact h s hs p hp

theorem Broken.place (h : Broken batch k st) : Broken batch (k + n) (st.place batch k n) := by
  obtain ⟨s, hs, hdraft, hbatch, hnone, p, hp, hne⟩ := h
  refine ⟨s, hs, hdraft, hbatch, fun t ht => hnone t (mem_drop_of_mem_drop ht), p, hp, ?_⟩
  have hzero : ((batch.drop k).take n).count (s.id, p) = 0 :=
    List.count_eq_zero.mpr fun hmem => hnone _ (List.mem_of_mem_take hmem) rfl
  rw [DecodePass.place, List.count_append, hzero, Nat.add_zero]
  exact hne

/-- The slot after the work on a chunk. -/
theorem mem_decoded_slots {i n : Int} (hs : s ∈ (env.decoded st i n).slots) :
    ∃ slot ∈ st.slots,
      slot.reached i n = true ∧ s = env.sampleSlot (st.calls - 1) slot ∨
        slot.reached i n = false ∧ s = slot := by
  obtain ⟨slot, hslot, rfl⟩ := List.mem_map.mp hs
  refine ⟨slot, hslot, ?_⟩
  cases hr : slot.reached i n with
  | true => exact Or.inl ⟨rfl, if_pos rfl⟩
  | false => exact Or.inr ⟨rfl, if_neg Bool.false_ne_true⟩

section Decoded
variable {i n : Int}

theorem reached_processing (h : s.reached i n = true) : s.processing = true := by
  rw [DecodeSlot.reached, Bool.and_eq_true] at h
  exact h.1

/-- The slots that are sampled have different ids. -/
theorem Clean.reached_nodup (h : Clean batch cells₀ slots₀ k st)
    (hids : (slots₀.map DecodeSlot.id).Nodup) :
    ((st.slots.filter fun s => s.reached i n).map DecodeSlot.id).Nodup := by
  rw [← h.ids] at hids
  exact hids.sublist (List.filter_sublist.map _)

/-- A slot that is not sampled keeps its cells. -/
theorem Clean.count_decoded (h : Clean batch cells₀ slots₀ k st)
    (hids : (slots₀.map DecodeSlot.id).Nodup) (hs : s ∈ st.slots) (hr : s.reached i n = false)
    (p : Nat) : (env.decoded st i n).cells.count (s.id, p) = st.cells.count (s.id, p) := by
  refine count_foldl_of_ne fun r hmem heq => ?_
  rw [List.mem_filter] at hmem
  rw [h.slot_unique hids hmem.1 hs heq.symm, hr] at hmem
  exact Bool.false_ne_true hmem.2

/-- Sampling, when the slots that are reached have no token left to decode. -/
theorem Clean.decoded (h : Clean batch cells₀ slots₀ k st)
    (hids : (slots₀.map DecodeSlot.id).Nodup)
    (hreached : ∀ s ∈ st.slots, s.reached i n = true → ∀ t ∈ batch.drop k, t.1 ≠ s.id) :
    Clean batch cells₀ slots₀ k (env.decoded st i n) := by
  -- the cells of a slot with tokens are not touched
  have hne : ∀ t ∈ batch.drop k, ∀ c : SeqPos, c.1 = t.1 →
      ∀ s ∈ st.slots.filter fun s => s.reached i n, c.1 ≠ s.id := by
    intro t ht c hct s hs
    rw [List.mem_filter] at hs
    rw [hct]
    exact hreached s hs.1 hs.2 t ht
  refine ⟨h.groups, h.placed, ?_, fun t ht s hs hid p hp => ?_, fun c hc t ht hct => ?_,
    fun t ht => ?_, fun t ht c hct => ?_, fun s hs hp hd j t hj hget hid => ?_,
    fun s hs hidle => ?_⟩
  · rw [← h.ids, DecodeEnv.decoded, List.map_map]
    refine List.map_congr_left fun s _ => ?_
    rw [Function.comp_apply]
    split <;> rfl
  · obtain ⟨slot, hslot, ⟨hr, rfl⟩ | ⟨-, rfl⟩⟩ := mem_decoded_slots hs
    · exact absurd hid.symm (hreached slot hslot hr t ht)
    · rw [List.count_append]
      have hcount : (env.decoded st i n).cells.count (s.id, p) = st.cells.count (s.id, p) :=
        count_foldl_of_ne (hne t ht (s.id, p) hid)
      rw [hcount, ← List.count_append]
      exact h.waiting t ht s hslot hid p hp
  · exact h.before c ((mem_foldl_of_ne (hne t ht c hct)).mp hc) t ht hct
  · obtain ⟨s, hs, hs₀, hid, hrest⟩ := h.owned t ht
    refine ⟨s, ?_, hs₀, hid, hrest⟩
    refine List.mem_map.mpr ⟨s, hs, if_neg fun hr => ?_⟩
    exact hreached s hs hr t ht hid.symm
  · rw [← h.kept t ht c hct]
    exact mem_foldl_of_ne (hne t ht c hct)
  · obtain ⟨slot, hslot, ⟨hr, rfl⟩ | ⟨-, rfl⟩⟩ := mem_decoded_slots hs
    · -- a slot that was sampled has no more tokens
      have hmem : t ∈ batch.drop k := by
        rw [List.mem_iff_getElem?]
        refine ⟨j - k, ?_⟩
        rw [List.getElem?_drop, Nat.add_sub_cancel' hj]
        exact hget
      exact absurd hid (hreached slot hslot hr t hmem)
    · exact h.last s hslot hp hd j t hj hget hid
  · obtain ⟨hmem, hposted⟩ := h.idle s hs hidle
    have hnot : ¬ s.reached i n = true := by
      intro hr
      rw [DecodeSlot.isProcessing, reached_processing hr] at hidle
      exact absurd hidle (by simp)
    refine ⟨List.mem_map.mpr ⟨s, hmem, if_neg hnot⟩, ?_⟩
    rw [DecodeEnv.decoded, List.mem_append, not_or]
    refine ⟨hposted, fun hin => ?_⟩
    obtain ⟨r, hr, hrid⟩ := List.mem_map.mp hin
    rw [List.mem_filter] at hr
    rw [h.slot_unique hids hr.1 hmem hrid] at hr
    exact hnot hr.2

/-- The slots stay held when those that are sampled keep their cells. -/
theorem Held.decoded (h : Held batch k st) (hclean : Clean batch cells₀ slots₀ k st)
    (hids : (slots₀.map DecodeSlot.id).Nodup)
    (hreached : ∀ s ∈ st.slots, s.reached i n = true → ∀ t ∈ batch.drop k, t.1 ≠ s.id)
    (hkeeps : ∀ s ∈ st.slots, s.reached i n = true →
      ∀ p < (env.sampleSlot (st.calls - 1) s).size, env.KeepsAt (st.calls - 1) s p) :
    Held batch k (env.decoded st i n) := by
  intro s hs p hp
  obtain ⟨slot, hslot, ⟨hr, rfl⟩ | ⟨hr, rfl⟩⟩ := mem_decoded_slots hs
  · have hone := h slot hslot p (Nat.lt_of_lt_of_le hp sampleSlot_size_le)
    have hzero := count_drop_eq_zero (hreached slot hslot hr) (p := p)
    rw [List.count_append, hzero, Nat.add_zero] at hone
    rw [List.count_append]
    show _ + (batch.drop k).count (slot.id, p) = 1
    rw [hzero, Nat.add_zero]
    exact (count_foldl_iff (hclean.reached_nodup hids) (List.mem_filter.mpr ⟨hslot, hr⟩) hp
      hone).mpr (hkeeps slot hslot hr p hp)
  · rw [List.count_append, hclean.count_decoded hids hslot hr, ← List.count_append]
    exact h s hslot p hp

/-- A slot that is sampled and does not keep its cells is broken. -/
theorem Held.breaks (h : Held batch k st) (hclean : Clean batch cells₀ slots₀ k st)
    (hids : (slots₀.map DecodeSlot.id).Nodup)
    (hreached : ∀ s ∈ st.slots, s.reached i n = true → ∀ t ∈ batch.drop k, t.1 ≠ s.id)
    (hkeeps : ¬ ∀ s ∈ st.slots, s.reached i n = true →
      ∀ p < (env.sampleSlot (st.calls - 1) s).size, env.KeepsAt (st.calls - 1) s p) :
    Broken batch k (env.decoded st i n) := by
  push Not at hkeeps
  obtain ⟨s, hs, hr, p, hp, hlost⟩ := hkeeps
  refine ⟨env.sampleSlot (st.calls - 1) s, List.mem_map.mpr ⟨s, hs, if_pos hr⟩, rfl, rfl,
    hreached s hs hr, p, hp, fun hcount => hlost ?_⟩
  have hone := h s hs p (Nat.lt_of_lt_of_le hp sampleSlot_size_le)
  rw [List.count_append, count_drop_eq_zero (hreached s hs hr), Nat.add_zero] at hone
  exact (count_foldl_iff (hclean.reached_nodup hids) (List.mem_filter.mpr ⟨hs, hr⟩) hp
    hone).mp hcount

/-- A broken slot is not sampled again. -/
theorem Broken.decoded (h : Broken batch k st) (hclean : Clean batch cells₀ slots₀ k st)
    (hids : (slots₀.map DecodeSlot.id).Nodup) (hi : 0 ≤ i) :
    Broken batch k (env.decoded st i n) := by
  obtain ⟨s, hs, hdraft, hbatch, hnone, p, hp, hne⟩ := h
  have hr : s.reached i n = false := by
    have hlow : ¬ i ≤ -1 := by omega
    simp [DecodeSlot.reached, hdraft, hbatch, hlow]
  refine ⟨s, List.mem_map.mpr ⟨s, hs, if_neg (by simp [hr])⟩, hdraft, hbatch, hnone, p, hp, ?_⟩
  rw [hclean.count_decoded hids hs hr]
  exact hne

end Decoded

/-! ### The ends of a pass -/

/-- With all tokens decoded the slots are honest if they are held. -/
theorem Clean.honest (h : Clean batch cells₀ slots₀ batch.length st)
    (hheld : Held batch batch.length st) : Honest slots₀ st where
  once := by
    rw [h.placed]
    exact List.nodup_range
  held s hs p hp := by
    have hone := hheld s hs p hp
    rwa [List.drop_length, List.append_nil] at hone
  idle s hs hidle := by
    obtain ⟨hmem, hposted⟩ := h.idle s hs hidle
    exact ⟨⟨s, hmem, rfl, rfl⟩, hposted⟩

/-- A broken slot is not honest. -/
theorem Broken.not_honest (h : Broken batch k st) : ¬ Honest slots₀ st := by
  obtain ⟨s, hs, -, -, -, p, hp, hne⟩ := h
  exact fun hhonest => hne (hhonest.held s hs p hp)

/-- A token that is still to be decoded has no cell. -/
theorem Clean.not_held (h : Clean batch cells₀ slots₀ k st) (hs : s ∈ st.slots) {t : SeqPos}
    (ht : t ∈ batch.drop k) (hid : s.id = t.1) (hsize : t.2 < s.size) :
    st.cells.count (s.id, t.2) = 0 := by
  have hheld := h.waiting t ht s hs hid t.2 hsize
  have hmem : (s.id, t.2) ∈ batch.drop k := by
    rw [hid]
    exact ht
  have hpos := List.count_pos_iff.mpr hmem
  rw [List.count_append] at hheld
  omega

/-- The slots after an unwinding that is no cancel have their lists. -/
theorem mem_unwound {ret : Int} (hret : ret ≠ -3) {st : DecodePass} {s : DecodeSlot}
    (hs : s ∈ st.slots) : ∃ s' ∈ (env.unwound st ret).slots, s'.id = s.id ∧ s'.size = s.size := by
  refine ⟨_, List.mem_map_of_mem hs, ?_⟩
  split
  · exact ⟨rfl, if_neg hret⟩
  · exact ⟨rfl, rfl⟩

/-- A position of a token list has no cell. -/
def Lost (st : DecodePass) : Prop :=
  ∃ s ∈ st.slots, ∃ p < s.size, st.cells.count (s.id, p) = 0

/-- A lost cell is not made up for by what the pass does in the end. -/
theorem Lost.not_honest (h : Lost st) {ret : Int} (hret : ret ≠ -3) :
    ¬ Honest slots₀ (env.unwound st ret) := by
  intro hhonest
  obtain ⟨s, hs, p, hp, hzero⟩ := h
  obtain ⟨s', hs', hid, hsize⟩ := @mem_unwound env ret hret st s hs
  have hone := hhonest.held s' hs' p (by omega)
  rw [hid] at hone
  have hcells : (env.unwound st ret).cells = st.cells := rfl
  rw [hcells, hzero] at hone
  exact absurd hone (by decide)

/-- With a token to decode there is a position without a cell. -/
theorem Clean.lost (h : Clean batch cells₀ slots₀ k st) (hk : k < batch.length) : Lost st := by
  have hmem : batch[k] ∈ batch.drop k := by
    rw [List.drop_eq_getElem_cons hk]
    exact List.mem_cons_self
  obtain ⟨s, hs, -, hid, hsize, -⟩ := h.owned _ hmem
  exact ⟨s, hs, _, hsize, h.not_held hs hmem hid hsize⟩

/-- A cancel, when the first `k` tokens are placed. -/
theorem Clean.cancelled_honest_iff (hstart : PassStart batch cells₀ slots₀)
    (h : Clean batch cells₀ slots₀ k st) (hslots : Held batch k st) :
    Honest slots₀ (env.unwound st (-3)) ↔ (PassEnd.cancelled k).IsHonest batch cells₀ slots₀ := by
  have hids := hstart.ids
  constructor
  · intro hhonest s hs hp
    by_contra hnone
    rw [not_or, not_exists] at hnone
    obtain ⟨hsize, hcell⟩ := hnone
    -- the first token of the slot is still to be decoded
    have hfirst : (s.id, 0) ∈ batch.drop k := by
      have hone := hstart.held s hs 0 (by omega)
      have hmem : (s.id, 0) ∈ cells₀ ++ batch := List.count_pos_iff.mp (by omega)
      rw [← List.take_append_drop k batch, List.mem_append, List.mem_append] at hmem
      rcases hmem with hmem | hmem | hmem
      · exact absurd ⟨Or.inl hmem, rfl⟩ (hcell (s.id, 0))
      · exact absurd ⟨Or.inr hmem, rfl⟩ (hcell (s.id, 0))
      · exact hmem
    have hslot : s ∈ st.slots := by
      obtain ⟨s', hs', hs₀, hid, -⟩ := h.owned _ hfirst
      rwa [List.inj_on_of_nodup_map hids hs₀ hs hid] at hs'
    have hno : ∀ c ∈ st.cells, c.1 ≠ s.id := by
      intro c hc hid
      exact hcell c ⟨(h.kept _ hfirst c hid).mp hc, hid⟩
    have hmax : seqPosMax st.cells s.id = 0 := by
      rcases (@seqPosMax_spec st.cells s.id).2 with hmem | ⟨-, hzero⟩
      · exact absurd rfl (hno _ hmem)
      · exact hzero
    have hunwound : unwindSlot (-3) st.cells s ∈ (env.unwound st (-3)).slots :=
      List.mem_map.mpr ⟨s, hslot, if_pos hp⟩
    -- one token of the list is kept
    have hkept : 0 < (unwindSlot (-3) st.cells s).size := by
      simp only [unwindSlot, if_true, hmax]
      omega
    have hone : st.cells.count (s.id, 0) = 1 := hhonest.held _ hunwound 0 hkept
    have hmem : (s.id, 0) ∈ st.cells := List.count_pos_iff.mp (by omega)
    exact hno (s.id, 0) hmem rfl
  · intro hcells
    refine ⟨?_, fun s' hs' p hp => ?_, fun s hs hidle => ?_⟩
    · have hplaced : (env.unwound st (-3)).placed = List.range k := h.placed
      rw [hplaced]
      exact List.nodup_range
    · obtain ⟨s, hs, rfl⟩ := List.mem_map.mp hs'
      have hid : (if env.unwinds (-3) s = true then unwindSlot (-3) st.cells s else s).id
          = s.id := by split <;> rfl
      have hsize : p < s.size := by
        split at hp
        · exact Nat.lt_of_lt_of_le hp (Nat.min_le_right _ _)
        · exact hp
      rw [hid]
      have hheld := hslots s hs p hsize
      -- the position is not that of a token that is still to be decoded
      have hnot : (s.id, p) ∉ batch.drop k := by
        intro hmem
        obtain ⟨r, hr, hr₀, hrid, -, hprocessing⟩ := h.owned _ hmem
        obtain rfl := h.slot_unique hids hr hs hrid
        have hunwinds : env.unwinds (-3) r = true := hprocessing
        rw [if_pos hunwinds] at hp
        simp only [unwindSlot, if_true] at hp
        rcases hcells r hr₀ hprocessing with hzero | ⟨c, hc, hcid⟩
        · omega
        · have hcell := (h.kept _ hmem c hcid).mpr hc
          rcases (@seqPosMax_spec st.cells r.id).2 with hmax | ⟨hnone, -⟩
          · have hlt := h.before _ hmax _ hmem rfl
            simp only at hlt
            omega
          · exact hnone c hcell hcid
      rw [List.count_append, List.count_eq_zero_of_not_mem hnot, Nat.add_zero] at hheld
      exact hheld
    · obtain ⟨hmem, hposted⟩ := h.idle s hs hidle
      have hnot : ¬ env.unwinds (-3) s = true := by
        rw [show env.unwinds (-3) s = s.isProcessing from rfl, hidle]
        exact Bool.false_ne_true
      refine ⟨⟨s, List.mem_map.mpr ⟨s, hmem, if_neg hnot⟩, rfl, rfl⟩, ?_⟩
      rw [DecodeEnv.unwound, List.mem_append, not_or]
      refine ⟨hposted, fun hin => ?_⟩
      obtain ⟨r, hr, hrid⟩ := List.mem_map.mp hin
      rw [List.mem_filter] at hr
      rw [h.slot_unique hids hr.1 hmem hrid] at hr
      exact hnot hr.2

/-! ### Tokens that are decoded again -/

/-- The state when a chunk is decoded again of which tokens were placed: a token was placed twice,
or the first token of the chunk is placed and a later one is not. -/
def Again (i : Int) (st : DecodePass) : Prop :=
  ¬ st.placed.Nodup ∨ (i.toNat ∈ st.placed ∧ Lost st)

/-- Placing the first token of the chunk places it twice. -/
theorem Again.place {i : Int} (h : Again i st) (hn : 0 < n) :
    ¬ (st.place batch i.toNat n).placed.Nodup := by
  rw [DecodePass.place, List.nodup_append']
  rintro ⟨hnodup, -, hdisjoint⟩
  rcases h with hdup | ⟨hmem, -⟩
  · exact hdup hnodup
  · refine hdisjoint hmem (List.mem_map.mpr ⟨0, List.mem_range.mpr hn, ?_⟩)
    rw [Nat.add_zero]

theorem place_zero (st : DecodePass) (k : Nat) :
    st.place batch k 0 = { st with calls := st.calls + 1 } := by
  simp [DecodePass.place]

/-- A call that places something places a token twice, and another one is no cancel. -/
theorem Again.decode {i n : Int} {st : DecodePass} (h : Again i st) (hgroups : st.groups = [])
    (hn : 1 ≤ n) : ¬ ((decodePassEnv env batch).decode st i n).2.placed.Nodup ∨
      (Again i ((decodePassEnv env batch).decode st i n).2 ∧
        ((decodePassEnv env batch).decode st i n).1 ≠ 0 ∧
        ((decodePassEnv env batch).decode st i n).1 ≠ -3) := by
  rw [decode_eq hgroups]
  by_cases hplaced : 0 < (env.result st.calls).placed n.toNat
  · exact Or.inl (h.place hplaced)
  · right
    have hzero : (env.result st.calls).placed n.toNat = 0 := by omega
    refine ⟨?_, ?_⟩
    · simp only [hzero, place_zero]
      exact h
    · revert hzero
      cases env.result st.calls with
      | ok =>
        simp only [DecodeResult.placed]
        omega
      | full placed => simp [DecodeResult.ret]
      | cancelled placed =>
        simp only [DecodeResult.placed]
        omega
      | failed empty => exact fun _ => by cases empty <;> simp [DecodeResult.ret]

/-- A token that was placed twice stays so. -/
theorem not_nodup_decode (hgroups : st.groups = []) (i n : Int) (h : ¬ st.placed.Nodup) :
    ¬ ((decodePassEnv env batch).decode st i n).2.placed.Nodup := by
  rw [decode_eq hgroups]
  exact fun hnodup => h (List.nodup_append'.mp hnodup).1

/-- A pass that decodes placed tokens again is not honest. -/
theorem again_rule : LoopRule (decodePassEnv env batch) batch.length
    (fun i st => st.groups = [] ∧
      (¬ st.placed.Nodup ∨ (i < batch.length ∧ Again i st)))
    (fun st => ¬ Honest slots₀ st) where
  decoded i n st _ hn _ h hret := by
    obtain ⟨hgroups, h⟩ := h
    refine ⟨by rw [decode_eq hgroups]; exact hgroups, Or.inl ?_⟩
    rcases h with hdup | ⟨-, hagain⟩
    · exact not_nodup_decode hgroups i n hdup
    · exact (hagain.decode hgroups hn).resolve_right fun hr => hr.2.1 hret
  again i n st _ hn _ h hret := by
    obtain ⟨hgroups, h⟩ := h
    refine ⟨by rw [decode_eq hgroups]; exact hgroups, ?_⟩
    rcases h with hdup | ⟨hlt, hagain⟩
    · exact Or.inl (not_nodup_decode hgroups i n hdup)
    · rcases hagain.decode hgroups hn with hdup | ⟨hnext, -⟩
      · exact Or.inl hdup
      · exact Or.inr ⟨hlt, hnext⟩
  defrag _ _ _ _ h := h
  failed i n st _ hn _ h hret := by
    obtain ⟨hgroups, h⟩ := h
    have hcases : ¬ ((decodePassEnv env batch).decode st i n).2.placed.Nodup ∨
        (Again i ((decodePassEnv env batch).decode st i n).2 ∧
          ((decodePassEnv env batch).decode st i n).1 ≠ -3) := by
      rcases h with hdup | ⟨-, hagain⟩
      · exact Or.inl (not_nodup_decode hgroups i n hdup)
      · rcases hagain.decode hgroups hn with hdup | ⟨hnext, -, hcancel⟩
        · exact Or.inl hdup
        · exact Or.inr ⟨hnext, hcancel⟩
    rcases hcases with hdup | ⟨hdup | ⟨-, hlost⟩, hcancel⟩
    · exact fun hhonest => hdup hhonest.once
    · exact fun hhonest => hdup hhonest.once
    · exact hlost.not_honest hcancel
  done st h := by
    rcases h.2 with hdup | ⟨hlt, -⟩
    · exact fun hhonest => hdup hhonest.once
    · omega

/-! ### The loop -/

/-- The slots that are reached after the first chunks have no token left to decode. -/
theorem Clean.reached {i : Nat} (h : Clean batch cells₀ slots₀ i st)
    (hfit : ∀ s ∈ st.slots, s.processing = true → s.drafting = true → ∀ (j : Nat) t,
      batch[j]? = some t → t.1 = s.id → j < i + n) :
    ∀ s ∈ st.slots, s.reached i n = true → ∀ t ∈ batch.drop (i + n), t.1 ≠ s.id := by
  intro s hs hr t ht hid
  obtain ⟨j, hj⟩ := List.mem_iff_getElem?.mp ht
  rw [List.getElem?_drop] at hj
  rw [DecodeSlot.reached, Bool.and_eq_true, Bool.or_eq_true, Bool.and_eq_true,
    decide_eq_true_iff, decide_eq_true_iff] at hr
  obtain ⟨hp, hdraft | ⟨-, hlt⟩⟩ := hr
  · have hin := hfit s hs hp hdraft _ t hj hid
    omega
  · cases hdraft : s.drafting with
    | true =>
      have hin := hfit s hs hp hdraft _ t hj hid
      omega
    | false =>
      have hle := h.last s hs hp hdraft (i + n + j) t (by omega) hj hid
      omega

/-- What the induction over the loop needs of the drafts: they are in the first chunk. -/
def FitsFrom (env : DecodeEnv) (batch : List SeqPos) (fuel : Nat) (i nBatch : Int) (tried : Bool)
    (st : DecodePass) : Prop :=
  ∀ s ∈ st.slots, s.processing = true → s.drafting = true → i = 0 ∧
    ∀ (j : Nat) t, batch[j]? = some t → t.1 = s.id → ∀ n,
      firstChunkLoop (fun k => (env.result k).ret) batch.length fuel st.calls nBatch tried
        = some n → (j : Int) < n

/-- A draft that is not verified yet lies in the chunk that is decoded. -/
theorem FitsFrom.before {m : Nat} (hfit : FitsFrom env batch (fuel + 1) k nBatch tried st)
    (hend : ¬ (batch.length : Int) ≤ k) (hn : min nBatch ((batch.length : Int) - k) = m)
    (hret : (env.result st.calls).ret = 0) :
    ∀ s ∈ st.slots, s.processing = true → s.drafting = true → ∀ (j : Nat) t,
      batch[j]? = some t → t.1 = s.id → j < k + m := by
  intro s hs hp hd j t hj hid
  obtain ⟨hzero, hfirst⟩ := hfit s hs hp hd
  have hlt := hfirst j t hj hid m (by
    rw [firstChunkLoop, if_neg (by omega), if_pos hret, Option.some_inj]
    omega)
  omega

/-- A chunk that is decoded again without progress leaves the drafts in the first one. -/
theorem FitsFrom.again {i : Int} (hfit : FitsFrom env batch (fuel + 1) i nBatch tried st)
    (hlength : 0 < batch.length) (hret : (env.result st.calls).ret = 1) :
    (tried = false → FitsFrom env batch fuel i nBatch true { st with calls := st.calls + 1 }) ∧
      (tried = true → nBatch ≠ 1 →
        FitsFrom env batch fuel i (nBatch.tdiv 2) true { st with calls := st.calls + 1 }) := by
  refine ⟨fun htried s hs hp hd => ?_, fun htried hone s hs hp hd => ?_⟩
  · have hold := hfit s hs hp hd
    rw [firstChunkLoop, if_neg (by omega), hret, if_neg (by decide), htried,
      if_pos (by decide)] at hold
    exact hold
  · have hold := hfit s hs hp hd
    rw [firstChunkLoop, if_neg (by omega), hret, if_neg (by decide), htried,
      if_neg (by decide), if_neg (by omega)] at hold
    exact hold

/-- After a chunk the slots are held when they were and the sampled ones keep their cells, and
broken otherwise. -/
theorem held_decoded_iff {k m : Nat} {st : DecodePass}
    (hslots : Held batch k st ∨ Broken batch k st)
    (hclean : Clean batch cells₀ slots₀ (k + m) (st.place batch k m))
    (hids : (slots₀.map DecodeSlot.id).Nodup)
    (hreached : ∀ s ∈ st.slots, s.reached k m = true → ∀ t ∈ batch.drop (k + m), t.1 ≠ s.id) :
    (Held batch (k + m) (env.decoded (st.place batch k m) k m) ↔
        Held batch k st ∧ ∀ s ∈ st.slots, s.reached k m = true →
          ∀ p < (env.sampleSlot st.calls s).size, env.KeepsAt st.calls s p) ∧
      (Held batch (k + m) (env.decoded (st.place batch k m) k m) ∨
        Broken batch (k + m) (env.decoded (st.place batch k m) k m)) := by
  have hcalls : (st.place batch k m).calls - 1 = st.calls := Nat.add_sub_cancel _ _
  rcases hslots with hheld | hbroken
  · by_cases hall : ∀ s ∈ st.slots, s.reached k m = true →
      ∀ p < (env.sampleSlot st.calls s).size, env.KeepsAt st.calls s p
    · have hafter := hheld.place.decoded hclean hids hreached (hcalls ▸ hall)
      exact ⟨iff_of_true hafter ⟨hheld, hall⟩, Or.inl hafter⟩
    · have hafter := hheld.place.breaks hclean hids hreached (hcalls ▸ hall)
      exact ⟨iff_of_false (fun h => h.not_broken hafter) fun h => hall h.2, Or.inr hafter⟩
  · have hafter : Broken batch (k + m) (env.decoded (st.place batch k m) k m) :=
      hbroken.place.decoded hclean hids (Int.natCast_nonneg k)
    exact ⟨iff_of_false (fun h => h.not_broken hafter) fun h => h.1.not_broken hbroken,
      Or.inr hafter⟩

/-- Where some tokens of a chunk are placed, and not all, the rounds that follow are not honest. -/
theorem Clean.not_honest_of_placed {q : Nat} {st' : DecodePass} {nBatch' : Int}
    (hclean : Clean batch cells₀ slots₀ (k + q) (st.place batch k q)) (hq : 0 < q)
    (hlt : k + q < batch.length) (hbatch : 1 ≤ nBatch)
    (hrun : batchLoop (decodePassEnv env batch) batch.length fuel k nBatch tried
      (st.place batch k q) = some (st', nBatch')) : ¬ Honest slots₀ st' := by
  have hmem : k ∈ (st.place batch k q).placed := by
    rw [hclean.placed, List.mem_range]
    omega
  refine batchLoop_rule again_rule (Int.natCast_nonneg k) hbatch ?_ hrun
  rw [Int.min_eq_left (by omega)]
  exact ⟨hclean.groups, Or.inr ⟨by omega, Or.inr ⟨hmem, hclean.lost hlt⟩⟩⟩

/-- What the loop makes of a state: the slots are honest at its end exactly when they are held now,
keep their cells in all rounds to come, and the end is a good one. Of a cancel it speaks only when
they are held and keep their cells. -/
def LoopHonest (env : DecodeEnv) (batch cells₀ : List SeqPos) (slots₀ : List DecodeSlot)
    (fuel : Nat) (i nBatch : Int) (tried : Bool) (st : DecodePass) : Prop :=
  ∀ st' nBatch', batchLoop (decodePassEnv env batch) batch.length fuel i nBatch tried st
      = some (st', nBatch') →
    (∀ k, passEndLoop env.result batch.length fuel st.calls i nBatch tried = .cancelled k →
      Held batch (min i batch.length).toNat st ∧ KeepsAll env st.slots
        (roundsLoop (fun k => (env.result k).ret) batch.length fuel st.calls i nBatch tried)) →
    (Honest slots₀ st' ↔
      (Held batch (min i batch.length).toNat st ∧ KeepsAll env st.slots
        (roundsLoop (fun k => (env.result k).ret) batch.length fuel st.calls i nBatch tried)) ∧
      (passEndLoop env.result batch.length fuel st.calls i nBatch tried).IsHonest batch cells₀
        slots₀)

section
variable {m : Nat}

/-- A round whose chunk is decoded. -/
theorem LoopHonest.decoded (hids : (slots₀.map DecodeSlot.id).Nodup)
    (hresult : env.result st.calls = .ok) (hend : ¬ (batch.length : Int) ≤ k)
    (hn : min nBatch ((batch.length : Int) - k) = m) (hgroups : st.groups = [])
    (hslots : Held batch k st ∨ Broken batch k st)
    (hclean : Clean batch cells₀ slots₀ (k + m) (st.place batch k m))
    (hreached : ∀ s ∈ st.slots, s.reached k m = true → ∀ t ∈ batch.drop (k + m), t.1 ≠ s.id)
    (h : LoopHonest env batch cells₀ slots₀ fuel (k + nBatch) nBatch tried
      (env.decoded (st.place batch k m) k m)) :
    LoopHonest env batch cells₀ slots₀ (fuel + 1) k nBatch tried st := by
  intro st' nBatch' hrun hcancel
  have hdecode := @decode_eq env batch _ hgroups k m
  simp only [Int.toNat_natCast, hresult, DecodeResult.ret, DecodeResult.placed] at hdecode
  have hret : (env.result st.calls).ret = 0 := by
    rw [hresult]
    rfl
  rw [batchLoop_of_decoded hend (hn ▸ hdecode), hn] at hrun
  rw [roundsLoop_of_decoded (fun k => (env.result k).ret) hend hret, hn, passEndLoop,
    if_neg hend] at hcancel ⊢
  simp only [hresult] at hcancel ⊢
  have hmin : (min (k : Int) batch.length).toNat = k := by omega
  have hnext : (min ((k : Int) + nBatch) batch.length).toNat = k + m := by omega
  have hcalls : (st.place batch k m).calls - 1 = st.calls := Nat.add_sub_cancel _ _
  -- the slots after the chunk
  have hkeeps : KeepsAll env st.slots (⟨st.calls, k, m⟩ ::
        roundsLoop (fun k => (env.result k).ret) batch.length fuel (st.calls + 1)
          (k + nBatch) nBatch tried) ↔
      (∀ s ∈ st.slots, s.reached k m = true →
        ∀ p < (env.sampleSlot st.calls s).size, env.KeepsAt st.calls s p) ∧
      KeepsAll env (env.decoded (st.place batch k m) k m).slots
        (roundsLoop (fun k => (env.result k).ret) batch.length fuel (st.calls + 1)
          (k + nBatch) nBatch tried) := by
    rw [KeepsAll, if_pos hresult, DecodeEnv.decoded, hcalls]
    rfl
  have hstate := @held_decoded_iff env _ _ _ _ _ _ hslots hclean hids hreached
  rw [hmin, hkeeps, ← and_assoc, ← hstate.1] at hcancel ⊢
  have hiff := h st' nBatch' hrun
  rw [hnext] at hiff
  exact hiff hcancel

/-- A round whose chunk finds no room: it is decoded again when nothing of it was placed. -/
theorem LoopHonest.full {placed : Nat} (hresult : env.result st.calls = .full placed)
    (hend : ¬ (batch.length : Int) ≤ k) (hn : min nBatch ((batch.length : Int) - k) = m)
    (hbatch : 1 ≤ nBatch) (hfit : FitsFrom env batch (fuel + 1) k nBatch tried st)
    (hplace : ∀ q, Clean batch cells₀ slots₀ (k + q) (st.place batch k q))
    (h : ∀ nBatch tried, 1 ≤ nBatch →
      FitsFrom env batch fuel k nBatch tried { st with calls := st.calls + 1 } →
      LoopHonest env batch cells₀ slots₀ fuel k nBatch tried { st with calls := st.calls + 1 }) :
    LoopHonest env batch cells₀ slots₀ (fuel + 1) k nBatch tried st := by
  intro st' nBatch' hrun hcancel
  have hsame := hplace 0
  rw [place_zero, Nat.add_zero] at hsame
  have hdecode := @decode_eq env batch st hsame.groups k m
  simp only [Int.toNat_natCast, hresult, DecodeResult.ret] at hdecode
  have hret : (env.result st.calls).ret = 1 := by
    rw [hresult]
    rfl
  rw [batchLoop_of_failed hend (hn ▸ hdecode) (by decide)] at hrun
  rw [passEndLoop, if_neg hend, hn] at hcancel ⊢
  simp only [hresult, Int.toNat_natCast] at hcancel ⊢
  have hqm : (DecodeResult.full placed).placed m ≤ m - 1 := Nat.min_le_right _ _
  by_cases hpos : 0 < (DecodeResult.full placed).placed m
  · -- the first tokens of the chunk are placed, and a later one is not
    rw [if_pos hpos]
    refine iff_of_false ?_ fun h => h.2
    generalize (DecodeResult.full placed).placed m = q at hrun hpos hqm
    split at hrun
    · exact (hplace q).not_honest_of_placed hpos (by omega) hbatch hrun
    · rw [if_neg (by omega)] at hrun
      exact (hplace q).not_honest_of_placed hpos (by omega) (tdiv_two hbatch (by omega)).1 hrun
  · have hzero : (DecodeResult.full placed).placed m = 0 := by omega
    rw [if_neg hpos] at hcancel ⊢
    rw [hzero, place_zero] at hrun
    have hagain := hfit.again (by omega) hret
    have hkeeps : ∀ rounds, KeepsAll env st.slots (⟨st.calls, k, m⟩ :: rounds) ↔
        KeepsAll env st.slots rounds := by
      intro rounds
      rw [KeepsAll, if_neg (by rw [hresult]; simp)]
    rw [roundsLoop_of_failed (fun k => (env.result k).ret) hend (by rw [hret]; decide), hn,
      hkeeps] at hcancel ⊢
    rw [hret] at hcancel ⊢
    cases htried : tried with
    | false =>
      simp only [htried, Bool.false_eq_true, not_false_eq_true, and_self, if_true]
        at hrun hcancel ⊢
      exact h nBatch true hbatch (hagain.1 htried) st' nBatch' hrun hcancel
    | true =>
      simp only [htried, not_true_eq_false, and_false, if_false] at hrun hcancel ⊢
      by_cases hone : nBatch = 1
      · rw [if_pos (Or.inl hone), Option.some_inj, Prod.mk.injEq] at hrun
        rw [if_pos hone, ← hrun.1]
        refine iff_of_false ?_ fun h => h.2
        exact (hsame.lost (by omega)).not_honest (by decide)
      · have hmore : ¬ (nBatch = 1 ∨ (1 : Int) < 0) := by omega
        rw [if_neg hmore] at hrun
        rw [if_neg hmore, if_neg hone] at hcancel ⊢
        exact h _ true (tdiv_two hbatch hone).1 (hagain.2 htried hone) st' nBatch' hrun hcancel

end

/-- The induction over the loop. The slots are held or broken in every round. -/
theorem loopHonest (hstart : PassStart batch cells₀ slots₀) {i : Int} (hi : 0 ≤ i)
    (hbatch : 1 ≤ nBatch) (hclean : Clean batch cells₀ slots₀ (min i batch.length).toNat st)
    (hslots : Held batch (min i batch.length).toNat st ∨
      Broken batch (min i batch.length).toNat st)
    (hfit : FitsFrom env batch fuel i nBatch tried st) :
    LoopHonest env batch cells₀ slots₀ fuel i nBatch tried st := by
  induction fuel generalizing i nBatch tried st with
  | zero =>
    intro st' nBatch' hrun
    exact absurd hrun (by simp [batchLoop])
  | succ fuel ih =>
    by_cases hend : (batch.length : Int) ≤ i
    · intro st' nBatch' hrun _
      rw [batchLoop, if_pos hend, Option.some_inj, Prod.mk.injEq] at hrun
      rw [Int.min_eq_right hend, Int.toNat_natCast] at hclean hslots ⊢
      rw [passEndLoop, if_pos hend, ← hrun.1, roundsLoop, if_pos hend]
      rcases hslots with hheld | hbroken
      · exact iff_of_true (hclean.honest hheld) ⟨⟨hheld, trivial⟩, trivial⟩
      · exact iff_of_false hbroken.not_honest fun h => h.1.1.not_broken hbroken
    · obtain ⟨k, rfl⟩ := Int.eq_ofNat_of_zero_le hi
      have hmin : (min (k : Int) batch.length).toNat = k := by omega
      rw [hmin] at hclean hslots
      obtain ⟨m, hn⟩ := Int.eq_ofNat_of_zero_le (by omega : 0 ≤ min nBatch (batch.length - k))
      have hplace : ∀ q, Clean batch cells₀ slots₀ (k + q) (st.place batch k q) :=
        fun q => hclean.place hstart.ordered
      cases hresult : env.result st.calls with
      | ok =>
        have hret : (env.result st.calls).ret = 0 := by
          rw [hresult]
          rfl
        have hnext : (min ((k : Int) + nBatch) batch.length).toNat = k + m := by omega
        have hreached := hclean.reached (hfit.before hend hn hret)
        have hnew := @Clean.decoded env _ _ _ _ _ k m (hplace m) hstart.ids hreached
        have hstate := @held_decoded_iff env _ _ _ _ _ _ hslots (hplace m) hstart.ids hreached
        refine .decoded hstart.ids hresult hend hn hclean.groups hslots (hplace m) hreached
          (ih (by omega) hbatch (hnext ▸ hnew) (hnext ▸ hstate.2) ?_)
        -- no draft is left
        intro s hs hp hd
        obtain ⟨slot, -, ⟨-, rfl⟩ | ⟨hr, rfl⟩⟩ := mem_decoded_slots hs
        · exact absurd hd Bool.false_ne_true
        · rw [DecodeSlot.reached, hp, hd] at hr
          exact absurd hr (by simp)
      | cancelled placed =>
        intro st' nBatch' hrun hcancel
        have hdecode := @decode_eq env batch _ hclean.groups k m
        simp only [Int.toNat_natCast, hresult, DecodeResult.ret] at hdecode
        rw [batchLoop_of_failed hend (hn ▸ hdecode) (by decide), if_neg (by simp),
          if_pos (Or.inr (by decide)), Option.some_inj, Prod.mk.injEq] at hrun
        rw [passEndLoop, if_neg hend, hn] at hcancel ⊢
        simp only [hresult, Int.toNat_natCast, hmin] at hcancel ⊢
        have hkeeps := hcancel _ rfl
        rw [← hrun.1, and_iff_right hkeeps]
        exact (hplace _).cancelled_honest_iff hstart hkeeps.1.place
      | failed empty =>
        intro st' nBatch' hrun _
        have hdecode := @decode_eq env batch _ hclean.groups k m
        simp only [Int.toNat_natCast, hresult] at hdecode
        have hret : (DecodeResult.failed empty).ret < 0 ∧ (DecodeResult.failed empty).ret ≠ -3 := by
          cases empty <;> decide
        rw [batchLoop_of_failed hend (hn ▸ hdecode) (by omega), if_neg (by omega),
          if_pos (Or.inr hret.1), Option.some_inj, Prod.mk.injEq] at hrun
        rw [passEndLoop, if_neg hend, ← hrun.1]
        simp only [hresult]
        refine iff_of_false ?_ fun h => h.2
        exact ((hplace 0).lost (by omega)).not_honest hret.2
      | full placed =>
        refine .full hresult hend hn hbatch hfit hplace fun nBatch tried hbatch hfit => ?_
        have hsame := hplace 0
        rw [place_zero, Nat.add_zero] at hsame
        exact ih hi hbatch (by rw [hmin]; exact hsame) (by rw [hmin]; exact hslots) hfit

end

/-! ### The theorem -/

/-- A token of a batch, as the cache takes it. -/
def tokenOf (t : SeqPos) : Kv.Token := ⟨t.2, [(t.1 : Int)]⟩

/-- The cells are those in use in `kv_self`. -/
def Represents (cells : List SeqPos) (ctx : Kv.KvContext) : Prop :=
  Kv.contents ctx.kvSelf = (cells.map fun c => (tokenOf c).content : List (Int × Finset Int))

/-- A call of `llama_decode` ends in one of the ways of `DecodeResult`, and the cache holds the
tokens that were placed besides what it held. -/
theorem llamaDecode_refines {call : Kv.DecodeCall} (hsplit : call.Splits)
    {cells chunk : List SeqPos} {slots : Nat} {swa : Bool} {ctx : Kv.KvContext}
    (hctx : Kv.DecodeReady slots swa ctx) (hcells : Represents cells ctx) :
    ∃ (result : DecodeResult) (ctx' : Kv.KvContext),
      Kv.llamaDecode call ctx (chunk.map tokenOf)
        = some (result.ret, result.placed chunk.length, ctx') ∧
      Kv.DecodeReady slots swa ctx' ∧
      Represents (cells ++ chunk.take (result.placed chunk.length)) ctx' := by
  have hb : ∀ t ∈ chunk.map tokenOf, 0 ≤ t.pos ∧ t.seqId ≠ [] := by
    intro t ht
    obtain ⟨c, -, rfl⟩ := List.mem_map.mp ht
    exact ⟨Int.natCast_nonneg _, List.cons_ne_nil _ _⟩
  obtain ⟨ret, n, ctx', hdecode, hle, hret, hready, hcontents⟩ :=
    Kv.llamaDecode_contents hsplit hb hctx
  rw [List.length_map] at hle hret
  have hresult : ∃ result : DecodeResult, result.ret = ret ∧ result.placed chunk.length = n := by
    rcases hret with ⟨rfl, rfl⟩ | ⟨rfl, hlt⟩ | ⟨rfl, hpos⟩ | ⟨rfl | rfl, rfl⟩
    · exact ⟨.ok, rfl, rfl⟩
    · exact ⟨.full n, rfl, by simp only [DecodeResult.placed]; omega⟩
    · exact ⟨.cancelled n, rfl, by simp only [DecodeResult.placed]; omega⟩
    · exact ⟨.failed true, rfl, rfl⟩
    · exact ⟨.failed false, rfl, rfl⟩
  obtain ⟨result, rfl, rfl⟩ := hresult
  refine ⟨result, ctx', hdecode, hready, ?_⟩
  rw [Represents] at hcells ⊢
  rw [hcontents, hcells, Multiset.coe_add, List.map_append, List.map_take, List.map_take,
    List.map_map]
  rfl

/-- Four tokens of two sequences in an empty cache of two cells, in ubatches of one token. -/
theorem llamaDecode_refines_init :
    let ctx : Kv.KvContext := ⟨Kv.llamaKvCacheInit false false 0 2,
      Kv.llamaKvCacheInit false false 0 0, false, 0, 0, false, true, true, 1⟩
    let chunk : List SeqPos := [(0, 0), (1, 0), (0, 1), (1, 1)]
    ∃ (result : DecodeResult) (ctx' : Kv.KvContext),
      Kv.llamaDecode ⟨1, fun _ => 1, true, fun _ => false, fun _ => false⟩ ctx (chunk.map tokenOf)
        = some (result.ret, result.placed 4, ctx') ∧ Kv.DecodeReady 0 false ctx' ∧
      Represents ([] ++ chunk.take (result.placed 4)) ctx' := by
  intro ctx chunk
  refine llamaDecode_refines ⟨Nat.le_refl 1, fun _ => Nat.le_refl 1⟩
    ⟨⟨rfl, rfl, by decide, Nat.zero_le _, Kv.accounted_init false⟩, Nat.one_pos, rfl⟩ ?_
  rw [Represents, Kv.contents_eq]
  decide

/-! ### Two passes -/

/-- The results of the calls, where each later one succeeds. -/
def firstResult (result : DecodeResult) : DecodeEnv where
  result
    | 0 => result
    | _ => .ok
  kvUnified := true

/-- A slot whose prompt of four tokens is the batch. -/
def promptSlot : DecodeSlot where
  id := 0
  processing := true
  loadPrompt := false
  size := 4
  iBatch := 3
  drafting := false

def promptBatch : List SeqPos := [(0, 0), (0, 1), (0, 2), (0, 3)]

theorem promptSlot_start : PassStart promptBatch [] [promptSlot] where
  ids := by decide
  held := by decide
  ordered := by decide
  before := by decide
  owned := by decide
  last s hs _ _ j t hj _ := by
    have hlt := (List.getElem?_eq_some_iff.mp hj).1
    have hlength : promptBatch.length = 4 := rfl
    rw [List.mem_singleton.mp hs]
    show (j : Int) ≤ 3
    omega

/-- A slot with three cells that verifies two drafts behind a sampled token. -/
def replaySlot : DecodeSlot where
  id := 0
  processing := true
  loadPrompt := false
  size := 6
  iBatch := -1
  drafting := true
  drafted := 2

def draftBatch : List SeqPos := [(0, 3), (0, 4), (0, 5)]

/-- One draft is accepted, and the checkpoint is replayed. -/
def replayEnv (replay : DecodeResult) : DecodeEnv where
  result _ := .ok
  accepted _ _ := 1
  rollback _ _ := .replays (some 3) replay
  kvUnified := true

theorem replaySlot_start : PassStart draftBatch [(0, 0), (0, 1), (0, 2)] [replaySlot] where
  ids := by decide
  held := by decide
  ordered := by decide
  before := by decide
  owned := by decide
  last s hs _ hd := by
    rw [List.mem_singleton.mp hs] at hd
    cases hd

/-- The group attention of the slot, with a window of eight positions. -/
def draftGroup : SlotGroup where
  gaN := 2
  gaW := 8
  one_lt_gaN := by decide
  gaN_dvd := by decide
  id := 0
  nPastSe := 3

/-- When the second `llama_decode` finds no room, the accepted tokens have no cells. -/
example : (decodePass (replayEnv (.full 0)) 4 draftBatch [(0, 0), (0, 1), (0, 2)] []
    [replaySlot]).map (fun st => (st.cells, st.slots.map DecodeSlot.size)) =
      some ([(0, 0), (0, 1), (0, 2)], [5]) := by
  decide +kernel

end PxqLlama.Server
