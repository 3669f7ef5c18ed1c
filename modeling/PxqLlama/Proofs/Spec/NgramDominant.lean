import PxqLlama.Lib.Tally
import PxqLlama.Proofs.Spec.NgramMap

/-!
# `Proofs.Spec.NgramDominant`: which continuation the n-gram map drafts

In complex mode `draft` counts the m-grams behind a key in four slots and asks for one that is at
least twice as frequent as the others together. It then drafts the tokens behind the place where
the key was found, and not the m-gram of the slot.

The statistics are described as a tally of m-grams (`statistics`), and the place by what it is the
last of (`matchPlace`). `draftSearch_spec` reads a draft that was made in these terms. The draft is
the one of the slot exactly when the latest continuation agrees with the most frequent one in as
many tokens as are drafted (`draft_selected_iff`).
-/

namespace PxqLlama.Spec.NgramMap

open Attempt SlotTally

/-! ### What is looked for, and where -/

/-- The n-gram stands at a place of the history. -/
def Stands (inp gram : List Token) (i : Nat) : Prop := gram <+: inp.drop i

instance (inp gram : List Token) (i : Nat) : Decidable (Stands inp gram i) :=
  inferInstanceAs (Decidable (_ <+: _))

/-- The last tokens of the history with the sampled one. -/
def keyGram (map : NgramMap) (inp : List Token) (sampled : Token) : List Token :=
  (inp.drop (inp.length - map.sizeKey + 1)).take (map.sizeKey - 1) ++ [sampled]

/-- The m-gram at a place. -/
def mgram (map : NgramMap) (inp : List Token) (i : Nat) : List Token :=
  (inp.drop i).take map.sizeValue

def ngramHash (tokens : List Token) : Nat :=
  tokens.foldl (fun hash t => (((hash : Int) * 2654435761 + t) % 2 ^ 32).toNat) 0

/-- The place of the hash table, if the n-gram stands there and it is early enough. -/
def hashedPlace (map : NgramMap) (inp gram : List Token) : Nat :=
  let place := map.keyMap (ngramHash (gram.take map.sizeKey) % map.keyMapSize)
  if map.keyMapSize ≠ 0 ∧ place < inp.length - (map.sizeKey + map.sizeValue + 1) ∧
    Stands inp gram place then place else 0

/-- The last place behind `low` and up to `high` where the n-gram stands, 0 if there is none. -/
def lastStand (inp gram : List Token) (low high : Nat) : Nat :=
  ((List.range (high + 1)).filter fun i => low < i ∧ Stands inp gram i).getLastD 0

/-- The place of the hash table, else the last one before the previous begin, else the last one
behind it. -/
def matchPlace (map : NgramMap) (inp gram : List Token) : Nat :=
  let size := map.sizeKey + map.sizeValue + 1
  let hashed := hashedPlace map inp gram
  let old := lastStand inp gram map.keyMapLastIdx (map.sizeLastBegin - size)
  if hashed ≠ 0 then hashed
  else if old ≠ 0 then old
  else lastStand inp gram (max map.sizeLastBegin map.keyMapLastIdx) (inp.length - size)

/-! ### What is counted -/

/-- The key of the n-gram, a new one if there is none. -/
def keyOf (map : NgramMap) (inp gram : List Token) : MapKey :=
  (map.keys.find? fun key => Stands inp gram key.keyIdx).getD
    (newKey map (matchPlace map inp gram))

/-- A value as a slot that counts its m-gram. -/
def slotOf (map : NgramMap) (inp : List Token) (v : MapValue) : Slot (List Token) Int where
  used := v.valueIdx ≠ 0
  item := mgram map inp v.valueIdx
  num := v.valueNum
  mark := v.nAccepted

/-- The m-grams behind the n-gram, where it stands at one of the places. -/
def continuations (map : NgramMap) (inp gram : List Token) (places : List Nat) :
    List (List Token) :=
  (places.filter (Stands inp gram)).map fun i => mgram map inp (i + map.sizeKey)

/-- The slots of a key with the places from the last one that was counted up to the match. -/
def statistics (map : NgramMap) (inp gram : List Token) (key : MapKey) (matchPos : Nat) :
    List (Slot (List Token) Int) :=
  (continuations map inp gram (List.range' key.statIdx (matchPos + 1 - key.statIdx))).foldl
    (add maxValueCount (toInt16 map.sizeValue)) (key.values.map (slotOf map inp))

/-- The m-gram behind a match begins with the tokens of the most frequent one, as far as it is
drafted. -/
def AgreesWithMostFrequent (map : NgramMap) (inp gram : List Token) (key : MapKey)
    (matchPos : Nat) : Prop :=
  ∀ i s, FirstMax Slot.num (statistics map inp gram key matchPos) i s →
    (mgram map inp (matchPos + map.sizeKey)).take (min (map.sizeValue : Int) s.mark).toNat <+: s.item

/-- The latest continuation of the n-gram agrees with the most frequent one. -/
def LatestIsMostFrequent (map : NgramMap) (inp : List Token) (sampled : Token) : Prop :=
  let gram := keyGram map inp sampled
  AgreesWithMostFrequent map inp gram (keyOf map inp gram) (matchPlace map inp gram)

/-- The draft is a prefix of the m-gram of the value that was selected, which is the most frequent
one and at least twice as frequent as the others together. -/
def DraftsSelected (map : NgramMap) (inp draft : List Token) : Prop :=
  ∃ key v, map.keys[map.lastDraftKeyIdx]? = some key ∧
    key.values[map.lastDraftValueIdx]? = some v ∧
    (∀ w ∈ key.values, w.valueNum ≤ v.valueNum) ∧
    2 * ((key.values.eraseIdx map.lastDraftValueIdx).map MapValue.valueNum).sum ≤ v.valueNum ∧
    draft <+: mgram map inp v.valueIdx

/-! ### Reads -/

variable {i place offset : Nat} {map' : NgramMap}

section
variable {inp gram : List Token}

theorem readAt_eq {t : Token} (h : readAt inp i = .ok t) : inp[i]? = some t := by
  rw [readAt] at h
  split at h
  · rename_i x hx
    rw [hx, Except.ok.inj h]
  · cases h

theorem drop_of_getElem? {t : Token} (h : inp[i]? = some t) :
    inp.drop i = t :: inp.drop (i + 1) := by
  obtain ⟨hlt, rfl⟩ := List.getElem?_eq_some_iff.mp h
  exact List.drop_eq_getElem_cons hlt

theorem stands_cons {t x : Token} (hx : inp[i]? = some x) :
    Stands inp (t :: gram) i ↔ t = x ∧ Stands inp gram (i + 1) := by
  rw [Stands, Stands, drop_of_getElem? hx]
  exact List.cons_prefix_cons

theorem matchAt_eq {found : Bool} (h : matchAt inp i gram = .ok found) :
    found = decide (Stands inp gram i) := by
  induction gram generalizing i with
  | nil =>
    cases h
    exact (decide_eq_true List.nil_prefix).symm
  | cons t gram ih =>
    obtain ⟨x, hx, hrest⟩ := bind_eq_ok.mp h
    simp only [stands_cons (readAt_eq hx)]
    split at hrest
    · rename_i heq
      rw [ih hrest]
      simp only [heq, true_and]
    · rename_i hne
      cases hrest
      simp only [Ne.symm hne, false_and, decide_false]

theorem sameAt_eq {j m : Nat} {same : Bool} (h : sameAt inp i j m = .ok same) :
    same = decide ((inp.drop j).take m = (inp.drop i).take m) := by
  induction m generalizing i j with
  | zero =>
    cases h
    rfl
  | succ m ih =>
    obtain ⟨x, hx, hrest⟩ := bind_eq_ok.mp h
    obtain ⟨y, hy, hrest⟩ := bind_eq_ok.mp hrest
    rw [drop_of_getElem? (readAt_eq hx), drop_of_getElem? (readAt_eq hy)]
    simp only [List.take_succ_cons, List.cons.injEq]
    split at hrest
    · rename_i heq
      rw [ih hrest, heq]
      simp only [true_and]
    · rename_i hne
      cases hrest
      simp only [Ne.symm hne, false_and, decide_false]

theorem copyFrom_eq {m : Nat} {tokens : List Token} (h : copyFrom inp i m = .ok tokens) :
    tokens = (inp.drop i).take m := by
  induction m generalizing i tokens with
  | zero =>
    cases h
    rfl
  | succ m ih =>
    obtain ⟨x, hx, hrest⟩ := bind_eq_ok.mp h
    obtain ⟨rest, htail, hok⟩ := bind_eq_ok.mp hrest
    cases hok
    rw [drop_of_getElem? (readAt_eq hx), List.take_succ_cons, ih htail]

theorem hashFrom_eq {len hash₀ hash : Nat} (h : hashFrom inp i len hash₀ = .ok hash) :
    hash = ((inp.drop i).take len).foldl
      (fun hash t => (((hash : Int) * 2654435761 + t) % 2 ^ 32).toNat) hash₀ := by
  induction len generalizing i hash₀ with
  | zero =>
    cases h
    rfl
  | succ len ih =>
    obtain ⟨x, hx, hrest⟩ := bind_eq_ok.mp h
    rw [drop_of_getElem? (readAt_eq hx), List.take_succ_cons, List.foldl_cons]
    exact ih hrest

theorem sub_eq {a b c : Nat} (h : sub a b = .ok c) : c = a - b := by
  rw [sub] at h
  split at h
  · exact (Except.ok.inj h).symm
  · cases h

/-! ### The searches -/

theorem lastStand_succ (low j : Nat) : lastStand inp gram low (j + 1)
    = if low < j + 1 ∧ Stands inp gram (j + 1) then j + 1 else lastStand inp gram low j := by
  rw [lastStand, List.range_succ, List.filter_append]
  split
  · rename_i h
    rw [List.filter_cons_of_pos (by simpa using h), List.filter_nil, List.getLastD_concat]
  · rename_i h
    rw [List.filter_cons_of_neg (by simpa using h), List.filter_nil, List.append_nil]
    rfl

/-- Nothing is found up to the place where the search ends. -/
theorem lastStand_of_le {low j : Nat} (h : j ≤ low) : lastStand inp gram low j = 0 := by
  rw [lastStand, List.filter_eq_nil_iff.mpr]
  · rfl
  · intro i hi
    have hlt := List.mem_range.mp hi
    simp only [decide_eq_true_eq, not_and]
    omega

/-- The search down finds the last place where the key stands. -/
theorem searchDown_eq {low j : Nat} (h : searchDown inp gram low j = .ok place) :
    place = lastStand inp gram low j := by
  induction j with
  | zero =>
    cases h
    exact (lastStand_of_le (Nat.zero_le low)).symm
  | succ j ih =>
    rw [searchDown] at h
    split at h
    · rename_i hle
      cases h
      exact (lastStand_of_le hle).symm
    · rename_i hlt
      obtain ⟨found, hfound, hrest⟩ := bind_eq_ok.mp h
      rw [matchAt_eq hfound] at hrest
      rw [lastStand_succ]
      split at hrest
      · rename_i hstands
        rw [if_pos ⟨by omega, of_decide_eq_true hstands⟩]
        exact (Except.ok.inj hrest).symm
      · rename_i hno
        rw [if_neg (fun hall => hno (decide_eq_true hall.2))]
        exact ih hrest

end

section
variable {map : NgramMap} {inp gram : List Token}

theorem keyTokens_eq {sampled : Token} (h : map.keyTokens inp sampled = .ok gram) :
    gram = keyGram map inp sampled := by
  obtain ⟨before, hbefore, hrest⟩ := bind_eq_ok.mp h
  obtain ⟨last, hlast, hok⟩ := bind_eq_ok.mp hrest
  cases hok
  rw [keyGram, copyFrom_eq hlast, sub_eq hbefore]

/-- The table of hashes names the place that it was filled with. -/
theorem lookupKeyMap_eq (h : map.lookupKeyMap inp gram = .ok place) :
    place = hashedPlace map inp gram := by
  rw [lookupKeyMap] at h
  rw [hashedPlace]
  split at h
  · rename_i hzero
    cases h
    rw [if_neg (fun hall => hall.1 hzero)]
  · rename_i hsize
    obtain ⟨hash, hhash, hrest⟩ := bind_eq_ok.mp h
    obtain ⟨last, hlast, hrest⟩ := bind_eq_ok.mp hrest
    have hngram : hash = ngramHash (gram.take map.sizeKey) := hashFrom_eq hhash
    rw [hngram, sub_eq hlast] at hrest
    generalize map.keyMap (ngramHash (gram.take map.sizeKey) % map.keyMapSize) = idx at hrest ⊢
    split at hrest
    · rename_i hidx
      obtain ⟨found, hfound, hok⟩ := bind_eq_ok.mp hrest
      cases hok
      rw [matchAt_eq hfound]
      simp only [decide_eq_true_eq, hsize, hidx.2, not_false_eq_true, true_and, ne_eq]
    · rename_i hidx
      cases hrest
      split
      · rename_i hall
        by_contra hne
        exact hidx ⟨Ne.symm hne, hall.2.1⟩
      · rfl

theorem searchOld_eq {place' : Nat} (h : map.searchOld inp gram place = .ok place') :
    place' = if place = 0 then lastStand inp gram map.keyMapLastIdx
      (map.sizeLastBegin - (map.sizeKey + map.sizeValue + 1)) else place := by
  rw [searchOld] at h
  split at h
  · rename_i hnone
    obtain ⟨first, hfirst, hdown⟩ := bind_eq_ok.mp h
    rw [if_pos hnone.1, searchDown_eq hdown, sub_eq hfirst]
  · rename_i hsome
    cases h
    split
    · rename_i hzero
      have hshort : map.sizeLastBegin - (map.sizeKey + map.sizeValue + 1) = 0 := by omega
      rw [hshort, lastStand_of_le (Nat.zero_le _)]
      exact hzero
    · rfl

theorem searchNew_eq {place' : Nat} (h : map.searchNew inp gram place = .ok place') :
    place' = if place = 0 then lastStand inp gram (max map.sizeLastBegin map.keyMapLastIdx)
      (inp.length - (map.sizeKey + map.sizeValue + 1)) else place := by
  rw [searchNew] at h
  split at h
  · rename_i hnone
    obtain ⟨first, hfirst, hdown⟩ := bind_eq_ok.mp h
    rw [if_pos hnone, searchDown_eq hdown, sub_eq hfirst]
  · rename_i hsome
    cases h
    rw [if_neg hsome]

/-- The match is the place that the table or the two searches give. -/
theorem findMatch_eq (h : map.findMatch inp gram = .ok place) :
    place = matchPlace map inp gram := by
  obtain ⟨hashed, hhashed, hrest⟩ := bind_eq_ok.mp h
  obtain ⟨old, hold, hnew⟩ := bind_eq_ok.mp hrest
  have hold := searchOld_eq hold
  rw [lookupKeyMap_eq hhashed] at hold
  rw [searchNew_eq hnew, matchPlace]
  by_cases hzero : hashedPlace map inp gram = 0
  · rw [if_pos hzero] at hold
    rw [if_neg (not_not_intro hzero), ← hold]
    by_cases hnone : old = 0
    · rw [if_pos hnone, if_neg (not_not_intro hnone)]
    · rw [if_neg hnone, if_pos hnone]
  · rw [if_neg hzero] at hold
    rw [if_pos hzero, hold, if_neg hzero]

/-! ### The statistics -/

theorem addHashes_eq (h : map.addHashes inp = .ok map') :
    ∃ keyMap last, map' = { map with keyMap := keyMap, keyMapLastIdx := last } := by
  rw [addHashes] at h
  split at h
  · cases h
    exact ⟨_, _, rfl⟩
  · obtain ⟨_, -, h⟩ := bind_eq_ok.mp h
    obtain ⟨_, -, h⟩ := bind_eq_ok.mp h
    obtain ⟨_, -, h⟩ := bind_eq_ok.mp h
    cases h
    exact ⟨_, _, rfl⟩

/-- The first key that stands for the n-gram, if there is one. -/
theorem findKey_eq {keys : List MapKey} (h : findKey inp gram keys = .ok offset) :
    offset ≤ keys.length ∧
      keys[offset]? = keys.find? fun key => Stands inp gram key.keyIdx := by
  induction keys generalizing offset with
  | nil =>
    cases h
    exact ⟨Nat.le_refl 0, rfl⟩
  | cons key keys ih =>
    obtain ⟨found, hfound, hrest⟩ := bind_eq_ok.mp h
    rw [matchAt_eq hfound] at hrest
    split at hrest
    · rename_i hstands
      cases hrest
      refine ⟨Nat.zero_le _, ?_⟩
      rw [List.find?_cons_of_pos (by simpa using hstands)]
      rfl
    · rename_i hno
      obtain ⟨next, hnext, hok⟩ := bind_eq_ok.mp hrest
      cases hok
      obtain ⟨hle, hget⟩ := ih hnext
      refine ⟨Nat.succ_le_succ hle, ?_⟩
      rw [List.getElem?_cons_succ, hget, List.find?_cons_of_neg (by simpa using hno)]

/-- Counting a place adds one to the value that stands there. -/
theorem countValue_eq {values values' : List MapValue} (hplace : place ≠ 0)
    (h : map.countValue inp place values = .ok values') :
    values'.map (slotOf map inp) = add maxValueCount (toInt16 map.sizeValue)
      (values.map (slotOf map inp)) (mgram map inp place) := by
  induction values generalizing values' with
  | nil =>
    cases h
    rfl
  | cons v values ih =>
    rw [countValue] at h
    rw [List.map_cons, add]
    split at h
    · rename_i hunused
      cases h
      rw [if_pos (by simp [slotOf, hunused])]
      simp [slotOf, hplace]
    · rename_i hused
      rw [if_neg (by simp [slotOf, hused])]
      obtain ⟨same, hsame, hrest⟩ := bind_eq_ok.mp h
      rw [sameAt_eq hsame] at hrest
      split at hrest
      · rename_i heq
        have hitem : (slotOf map inp v).item = mgram map inp place := of_decide_eq_true heq
        cases hrest
        rw [if_pos hitem]
        rfl
      · rename_i hne
        have hitem : (slotOf map inp v).item ≠ mgram map inp place :=
          fun heq => hne (decide_eq_true heq)
        obtain ⟨rest, hcount, hok⟩ := bind_eq_ok.mp hrest
        cases hok
        rw [if_neg hitem, List.map_cons, ih hcount]

/-- The loop over the places counts the continuations. -/
theorem countValues_eq {n : Nat} {values values' : List MapValue} (hkey : 1 ≤ map.sizeKey)
    (h : map.countValues inp gram n i values = .ok values') :
    values'.map (slotOf map inp) = (continuations map inp gram (List.range' i n)).foldl
      (add maxValueCount (toInt16 map.sizeValue)) (values.map (slotOf map inp)) := by
  induction n generalizing i values with
  | zero =>
    cases h
    rfl
  | succ n ih =>
    obtain ⟨found, hfound, hrest⟩ := bind_eq_ok.mp h
    rw [matchAt_eq hfound] at hrest
    rw [List.range'_succ, continuations]
    split at hrest
    · rename_i hstands
      obtain ⟨mid, hmid, hrest⟩ := bind_eq_ok.mp hrest
      rw [List.filter_cons_of_pos (by simpa using hstands), List.map_cons, List.foldl_cons,
        ← countValue_eq (by omega) hmid]
      exact ih hrest
    · rename_i hno
      rw [List.filter_cons_of_neg (by simpa using hno)]
      exact ih hrest

/-! ### The draft -/

/-- A draft of the part behind the search of the key: the statistics, the slot that stands out, and
the tokens behind the match. -/
theorem draftKey_eq {matchPos : Nat} {key : MapKey} {draft : List Token}
    (hmode : map.keyOnly = false)
    (h : map.draftKey inp gram matchPos offset key = .ok (map', draft)) (hne : draft ≠ []) :
    ∃ values slot occur, map.countValues inp gram (matchPos + 1 - key.statIdx) key.statIdx
        key.values = .ok values ∧
      slotMax values = (slot, occur) ∧
      2 * ((values.map MapValue.valueNum).sum - occur) ≤ occur ∧
      draft = (inp.drop (matchPos + map.sizeKey)).take
        (min (map.sizeValue : Int) ((values.map MapValue.nAccepted).getD slot (-1))).toNat ∧
      map'.keys = map.keys.set offset { key with
        keyNum := min (key.keyNum + 1) maxValueCount, values := values, statIdx := matchPos } ∧
      map'.sizeValue = map.sizeValue ∧ map'.lastDraftKeyIdx = offset ∧
      map'.lastDraftValueIdx = slot := by
  rw [draftKey] at h
  simp only [hmode, Bool.false_eq_true, if_false] at h
  split at h
  · -- not enough hits
    cases h
    exact absurd rfl hne
  · obtain ⟨values, hvalues, h⟩ := bind_eq_ok.mp h
    obtain ⟨_, -, h⟩ := bind_eq_ok.mp h
    split at h
    · cases h
      exact absurd rfl hne
    · rename_i hdominant
      obtain ⟨tokens, htokens, h⟩ := bind_eq_ok.mp h
      cases h
      refine ⟨values, (slotMax values).1, (slotMax values).2, hvalues, rfl, ?_,
        copyFrom_eq htokens, rfl, rfl, rfl, rfl⟩
      omega

/-- The counts of the other values. -/
theorem sum_eraseIdx {values : List MapValue} {v : MapValue} (h : values[i]? = some v) :
    ((values.eraseIdx i).map MapValue.valueNum).sum
      = (values.map MapValue.valueNum).sum - v.valueNum := by
  obtain ⟨hlt, rfl⟩ := List.getElem?_eq_some_iff.mp h
  have hperm := ((List.getElem_cons_eraseIdx_perm hlt).map MapValue.valueNum).sum_nat
  rw [List.map_cons, List.sum_cons] at hperm
  omega

/-- The last part of `draft` made a draft: it is the m-gram of the selected value exactly if that
begins with what stands behind the match. -/
theorem draftKey_selected {matchPos : Nat} {key : MapKey} {draft : List Token}
    (hmode : map.keyOnly = false) (hkey : 1 ≤ map.sizeKey) (hoffset : offset < map.keys.length)
    (h : map.draftKey inp gram matchPos offset key = .ok (map', draft)) (hne : draft ≠ []) :
    DraftsSelected map' inp draft ↔ AgreesWithMostFrequent map inp gram key matchPos := by
  obtain ⟨values, slot, occur, hcount, hmax, hdominant, hdraft, hkeys, hsize, hkeyIdx, hvalueIdx⟩ :=
    draftKey_eq hmode h hne
  have hstatistics : values.map (slotOf map inp) = statistics map inp gram key matchPos :=
    countValues_eq hkey hcount
  have hspec := argMax_spec MapValue.valueNum values
  rw [show argMax MapValue.valueNum values = (slot, occur) from hmax] at hspec
  rcases hspec with hnil | ⟨v, hfirst, hoccur⟩
  · -- without values nothing is drafted
    rw [hnil, List.map_nil, List.getD_nil] at hdraft
    have hzero : (min (map.sizeValue : Int) (-1)).toNat = 0 := by omega
    rw [hzero] at hdraft
    exact absurd hdraft hne
  · have hoccur : occur = v.valueNum := hoccur
    have hmark : (values.map MapValue.nAccepted).getD slot (-1) = v.nAccepted := by
      rw [List.getD_eq_getElem?_getD, List.getElem?_map, hfirst.at_place]
      rfl
    rw [hmark] at hdraft
    have hmgram : draft = (mgram map inp (matchPos + map.sizeKey)).take
        (min (map.sizeValue : Int) (slotOf map inp v).mark).toNat := by
      rw [mgram, List.take_take, hdraft]
      congr 1
      show _ = min (min (map.sizeValue : Int) v.nAccepted).toNat map.sizeValue
      omega
    have hheaviest :
        FirstMax Slot.num (statistics map inp gram key matchPos) slot (slotOf map inp v) :=
      hstatistics ▸ FirstMax.map hfirst
    have hget : map'.keys[map'.lastDraftKeyIdx]? = some { key with
        keyNum := min (key.keyNum + 1) maxValueCount, values := values
        statIdx := matchPos } := by
      rw [hkeys, hkeyIdx, List.getElem?_set_self hoffset]
    constructor
    · intro hselected i s hs
      obtain ⟨key', v', hkey', hv', -, -, hprefix⟩ := hselected
      obtain rfl := Option.some.inj (hget.symm.trans hkey')
      rw [hvalueIdx] at hv'
      obtain rfl := Option.some.inj (hfirst.at_place.symm.trans hv')
      obtain ⟨-, rfl⟩ := hs.unique hheaviest
      rw [← hmgram]
      rw [mgram, hsize] at hprefix
      exact hprefix
    · intro hlatest
      have hprefix := hlatest slot _ hheaviest
      rw [← hmgram] at hprefix
      refine ⟨_, v, hget, hvalueIdx ▸ hfirst.at_place, hfirst.largest, ?_, ?_⟩
      · rw [hvalueIdx, sum_eraseIdx hfirst.at_place, ← hoccur]
        exact hdominant
      · rw [mgram, hsize]
        exact hprefix

end

/-- The key that is used for a draft. -/
theorem getD_keyOf (map : NgramMap) {inp gram : List Token} {matchPos : Nat} {keys : List MapKey}
    (hoffset : findKey inp gram map.keys = .ok offset)
    (hmatch : matchPos = matchPlace map inp gram)
    (hkeys : keys = if offset = map.keys.length then map.keys ++ [newKey map matchPos] else map.keys) :
    offset < keys.length ∧ keys.getD offset (newKey map matchPos) = keyOf map inp gram := by
  obtain ⟨hle, hget⟩ := findKey_eq hoffset
  rw [keyOf, ← hget, ← hmatch, List.getD_eq_getElem?_getD, hkeys]
  split
  · rename_i hnone
    rw [List.length_append, List.length_singleton, hnone, List.getElem?_concat_length,
      List.getElem?_eq_none (Nat.le_refl _)]
    exact ⟨Nat.lt_succ_self _, rfl⟩
  · exact ⟨by omega, rfl⟩

/-- A draft in complex mode is a prefix of the m-gram of the value that it selects exactly when the
latest continuation of the n-gram agrees with the most frequent one, as far as it is drafted. -/
theorem draft_selected_iff {map map' : NgramMap} {inp draft : List Token} {sampled : Token}
    (hmode : map.keyOnly = false) (hkey : 1 ≤ map.sizeKey)
    (hdraft : map.draft inp sampled = .ok (map', draft)) (hne : draft ≠ []) :
    DraftsSelected map' inp draft ↔ LatestIsMostFrequent map inp sampled := by
  rw [NgramMap.draft] at hdraft
  simp only at hdraft
  split at hdraft
  · cases hdraft
    exact absurd rfl hne
  · split at hdraft
    · cases hdraft
    · obtain ⟨gram, hgram, hrest⟩ := bind_eq_ok.mp hdraft
      obtain ⟨matchPos, hmatch, hrest⟩ := bind_eq_ok.mp hrest
      obtain ⟨hashed, hhashes, hrest⟩ := bind_eq_ok.mp hrest
      obtain ⟨keyMap, last, rfl⟩ := addHashes_eq hhashes
      have hmatch : matchPos = matchPlace map inp gram := findMatch_eq hmatch
      split at hrest
      · cases hrest
        exact absurd rfl hne
      · obtain ⟨offset, hoffset, hrest⟩ := bind_eq_ok.mp hrest
        have hgram : gram = keyGram map inp sampled := keyTokens_eq hgram
        obtain ⟨hlt, hused⟩ := getD_keyOf map hoffset hmatch rfl
        have hselected :=
          draftKey_selected (by exact hmode) (by exact hkey) (by exact hlt) hrest hne
        rw [hselected, LatestIsMostFrequent, ← hgram, ← hused, ← hmatch]
        exact Iff.rfl

instance (map : NgramMap) (inp draft : List Token) : Decidable (DraftsSelected map inp draft) :=
  match hkey : map.keys[map.lastDraftKeyIdx]? with
  | none => isFalse fun ⟨_, _, h, _⟩ => by rw [hkey] at h; cases h
  | some key =>
    match hv : key.values[map.lastDraftValueIdx]? with
    | none => isFalse fun ⟨_, _, h, h', _⟩ => by
        rw [hkey] at h
        cases h
        rw [hv] at h'
        cases h'
    | some v =>
      decidable_of_iff
        ((∀ w ∈ key.values, w.valueNum ≤ v.valueNum) ∧
          2 * ((key.values.eraseIdx map.lastDraftValueIdx).map MapValue.valueNum).sum
            ≤ v.valueNum ∧ draft <+: mgram map inp v.valueIdx)
        ⟨fun h => ⟨key, v, hkey, hv, h⟩, fun ⟨_, _, h, h', hrest⟩ => by
          rw [hkey] at h
          cases h
          rw [hv] at h'
          cases h'
          exact hrest⟩

/-- The token 5 is followed by 1, by 1 again, and by 2. -/
def lastDiffers : List Token := [0, 5, 1, 5, 1, 5, 2, 9, 9]

/-- The token 5 is followed by 2, by 1, and by 1 again. -/
def lastAgrees : List Token := [0, 5, 2, 5, 1, 5, 1, 9, 9]

theorem eq_ok_of_toOption {ε α : Type} {x : Except ε α} {a : α} (h : x.toOption = some a) :
    x = .ok a := by
  cases x with
  | error e => cases h
  | ok b => rw [Option.some.inj h]

theorem draft_selected_lastAgrees : ∃ map',
    ((fresh 1 1 false 1 262144).map.start lastAgrees).draft lastAgrees 5 = .ok (map', [1]) ∧
    (DraftsSelected map' lastAgrees [1] ↔
      LatestIsMostFrequent ((fresh 1 1 false 1 262144).map.start lastAgrees) lastAgrees 5) := by
  have hrun : (((fresh 1 1 false 1 262144).map.start lastAgrees).draft lastAgrees 5).toOption.map
      Prod.snd = some [1] := by decide +kernel
  obtain ⟨⟨map', draft⟩, hok, rfl⟩ := Option.map_eq_some_iff.mp hrun
  have hdraft := eq_ok_of_toOption hok
  exact ⟨map', hdraft, draft_selected_iff rfl (Nat.le_refl 1) hdraft (List.cons_ne_nil 1 [])⟩

/-- Of a history whose last continuation is the rarer one, that one is drafted. -/
theorem draft_not_selected :
    ¬ ∀ (sizeKey sizeValue minHits keyMapSize : Nat), 1 ≤ sizeKey → ∀ s : Session,
      Runs (fresh sizeKey sizeValue false minHits keyMapSize) Session.step (fun _ _ => True) s →
      ∀ (inp : List Token) (sampled : Token), s.history <+: inp →
        ∀ map' draft, s.map.draft inp sampled = .ok (map', draft) → draft ≠ [] →
          DraftsSelected map' inp draft := by
  intro h
  have hall : Runs.Allowed Session.step (fun _ _ => True) (fresh 1 1 false 1 262144)
      [.start lastDiffers] := by decide +kernel
  have hselected := h 1 1 1 262144 (Nat.le_refl 1) _ (Runs.of_allowed .init hall) lastDiffers 5
    (by decide +kernel)
  have hno : ((((fresh 1 1 false 1 262144).map.start lastDiffers).draft lastDiffers 5).toOption.map
      fun r => decide (r.2 ≠ [] ∧ ¬ DraftsSelected r.1 lastDiffers r.2)) = some true := by
    decide +kernel
  obtain ⟨r, hr, hbad⟩ := Option.map_eq_some_iff.mp hno
  obtain ⟨hne, hbad⟩ := of_decide_eq_true hbad
  exact hbad (hselected r.1 r.2 (eq_ok_of_toOption hr) hne)

end PxqLlama.Spec.NgramMap
