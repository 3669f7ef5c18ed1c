import PxqLlama.Lib.Attempt
import PxqLlama.Lib.Runs
import PxqLlama.Spec.NgramMap

/-!
# `Proofs.Spec.NgramMap`: which histories the n-gram map reads past the end

Every place that a draft stores lies so far before the end of its history that the n-gram and the
m-gram at it fit (`Fits`). The stored places are read again in later histories. `begin` deletes
those from the previous begin size on, and only when the history got shorter than the last one
seen. The rest of them fit the new history in general only if it is not shorter.

So the reads stay inside in every run in which a shorter history comes only when the entries that
are kept end in it (`Keeps`). The proof is one specification for each part of `draft`, along
`Attempt.Yields`.
-/

namespace PxqLlama.Spec.NgramMap

open Attempt

/-! ### Reads -/

variable {i matchPos : Nat} {sampled : Token} {values : List MapValue}

section

variable {inp gram : List Token}

theorem readAt_yields (h : i < inp.length) : Yields (readAt inp i) fun _ => True := by
  rw [readAt, List.getElem?_eq_getElem h]
  exact .ok trivial

theorem sub_yields {a b : Nat} (h : b ≤ a) : Yields (sub a b) (· = a - b) := by
  rw [sub, if_pos h]
  exact .ok rfl

theorem matchAt_yields (h : i + gram.length ≤ inp.length) :
    Yields (matchAt inp i gram) fun _ => True := by
  induction gram generalizing i with
  | nil => exact .ok trivial
  | cons t gram ih =>
    rw [List.length_cons] at h
    refine (readAt_yields (by omega)).bind fun x _ => .ite (fun _ => ih (by omega)) fun _ => ?_
    exact .ok trivial

theorem sameAt_yields {j m : Nat} (hi : i + m ≤ inp.length) (hj : j + m ≤ inp.length) :
    Yields (sameAt inp i j m) fun _ => True := by
  induction m generalizing i j with
  | zero => exact .ok trivial
  | succ m ih =>
    refine (readAt_yields (by omega)).bind fun x _ => (readAt_yields (by omega)).bind fun y _ => ?_
    exact .ite (fun _ => ih (by omega) (by omega)) fun _ => .ok trivial

theorem copyFrom_yields {m : Nat} (h : i + m ≤ inp.length) :
    Yields (copyFrom inp i m) fun ts => ts.length = m := by
  induction m generalizing i with
  | zero => exact .ok rfl
  | succ m ih =>
    refine (readAt_yields (by omega)).bind fun x _ =>
      (@ih (i + 1) (by omega)).bind fun rest hrest => ?_
    exact .ok (by rw [List.length_cons, hrest])

theorem hashFrom_yields {len : Nat} (h : i + len ≤ inp.length) (hash : Nat) :
    Yields (hashFrom inp i len hash) fun _ => True := by
  induction len generalizing i hash with
  | zero => exact .ok trivial
  | succ len ih => exact (readAt_yields (by omega)).bind fun t _ => ih (by omega) _

theorem searchDown_yields {low j : Nat} (h : j + gram.length ≤ inp.length) :
    Yields (searchDown inp gram low j) (· ≤ j) := by
  induction j with
  | zero => exact .ok (Nat.le_refl 0)
  | succ j ih =>
    refine .ite (fun _ => .ok (Nat.zero_le _)) fun _ => (matchAt_yields h).bind fun found _ => ?_
    refine .ite (fun _ => .ok (Nat.le_refl _)) fun _ => (ih (by omega)).imp fun p hp => ?_
    omega

end

/-! ### The places that are stored -/

/-- The m-gram of a value ends in a history of the given length. -/
def ValueFits (map : NgramMap) (len : Nat) (v : MapValue) : Prop :=
  v.valueIdx = 0 ∨ v.valueIdx + map.sizeValue ≤ len

/-- So do the n-gram of a key and the m-grams of its values, where values are used. -/
def KeyFits (map : NgramMap) (len : Nat) (key : MapKey) : Prop :=
  key.keyIdx + map.sizeKey ≤ len ∧
    (map.keyOnly = false → ∀ v ∈ key.values, map.ValueFits len v)

def Fits (map : NgramMap) (len : Nat) : Prop := ∀ key ∈ map.keys, map.KeyFits len key

instance (map : NgramMap) (len : Nat) (v : MapValue) : Decidable (map.ValueFits len v) :=
  inferInstanceAs (Decidable (_ ∨ _))

instance (map : NgramMap) (len : Nat) (key : MapKey) : Decidable (map.KeyFits len key) :=
  inferInstanceAs (Decidable (_ ∧ _))

instance (map : NgramMap) (len : Nat) : Decidable (map.Fits len) :=
  inferInstanceAs (Decidable (∀ key ∈ map.keys, _))

section

variable {map : NgramMap} {inp gram : List Token} {len len' : Nat}

theorem ValueFits.mono {v : MapValue} (h : map.ValueFits len v) (hle : len ≤ len') :
    map.ValueFits len' v := h.imp_right fun h => Nat.le_trans h hle

theorem Fits.mono (h : map.Fits len) (hle : len ≤ len') : map.Fits len' := by
  intro key hkey
  obtain ⟨hidx, hvalues⟩ := h key hkey
  exact ⟨Nat.le_trans hidx hle, fun hmode v hv => (hvalues hmode v hv).mono hle⟩

/-! ### The parts of `draft` -/

theorem keyTokens_yields (hkey : 1 ≤ map.sizeKey) (hlen : map.sizeKey ≤ inp.length) :
    Yields (map.keyTokens inp sampled) fun gram => gram.length = map.sizeKey := by
  refine (sub_yields hlen).bind fun before hbefore => ?_
  refine (copyFrom_yields (by omega)).bind fun last hlast => .ok ?_
  rw [List.length_append, hlast, List.length_singleton]
  omega

theorem lookupKeyMap_yields (hgram : gram.length = map.sizeKey)
    (hlen : map.sizeKey + map.sizeValue + 1 ≤ inp.length) :
    Yields (map.lookupKeyMap inp gram) (· + (map.sizeKey + map.sizeValue + 1) ≤ inp.length) := by
  refine .ite (fun _ => .ok (by omega)) fun _ => ?_
  refine (hashFrom_yields (by omega) 0).bind fun hash _ => ?_
  refine (sub_yields hlen).bind fun last hlast => ?_
  refine .ite (fun hidx => ?_) fun _ => .ok (by omega)
  refine (matchAt_yields (by omega)).bind fun found _ => .ok ?_
  split <;> omega

/-- A match lies so far before the end that the n-gram and the m-gram behind it fit. -/
theorem findMatch_yields (hgram : gram.length = map.sizeKey)
    (hlen : map.sizeKey + map.sizeValue + 1 ≤ inp.length)
    (hbegin : map.sizeLastBegin ≤ inp.length) :
    Yields (map.findMatch inp gram) (· + (map.sizeKey + map.sizeValue + 1) ≤ inp.length) := by
  refine (lookupKeyMap_yields hgram hlen).bind fun place hplace => ?_
  have hold : Yields (map.searchOld inp gram place)
      (· + (map.sizeKey + map.sizeValue + 1) ≤ inp.length) := by
    refine .ite (fun h => ?_) fun _ => .ok hplace
    refine (sub_yields (Nat.le_of_lt h.2)).bind fun j hj => ?_
    exact (searchDown_yields (by omega)).imp fun p hp => by omega
  refine hold.bind fun place hplace => .ite (fun _ => ?_) fun _ => .ok hplace
  refine (sub_yields hlen).bind fun j hj => ?_
  exact (searchDown_yields (by omega)).imp fun p hp => by omega

theorem addHashesDown_yields {low j : Nat} (h : j + map.sizeKey ≤ inp.length)
    (keyMap : Nat → Nat) : Yields (map.addHashesDown inp low j keyMap) fun _ => True := by
  induction j generalizing keyMap with
  | zero => exact .ok trivial
  | succ j ih =>
    refine .ite (fun _ => .ok trivial) fun _ => ?_
    exact (hashFrom_yields h 0).bind fun hash _ => ih (by omega) _

/-- Adding hashes changes the hash table and the place up to which it was filled. -/
theorem addHashes_yields (hlen : map.sizeKey + map.sizeValue + 1 ≤ inp.length)
    (hbegin : map.sizeLastBegin ≤ inp.length) :
    Yields (map.addHashes inp) fun map' =>
      ∃ keyMap last, map' = { map with keyMap := keyMap, keyMapLastIdx := last } := by
  refine .ite (fun _ => .ok ⟨_, _, rfl⟩) fun _ => ?_
  have hfirst : Yields (map.addHashesOld inp) fun _ => True := by
    refine .ite (fun h => ?_) fun _ => .ok trivial
    exact (sub_yields (Nat.le_of_lt h)).bind fun j hj => addHashesDown_yields (by omega) _
  refine hfirst.bind fun keyMap _ => (sub_yields hlen).bind fun last hlast => ?_
  exact (addHashesDown_yields (by omega) keyMap).bind fun keyMap' _ => .ok ⟨_, _, rfl⟩

theorem findKey_yields {keys : List MapKey} (hgram : gram.length = map.sizeKey)
    (h : ∀ key ∈ keys, map.KeyFits inp.length key) :
    Yields (findKey inp gram keys) (· ≤ keys.length) := by
  induction keys with
  | nil => exact .ok (Nat.le_refl 0)
  | cons key keys ih =>
    have hfit := (h key List.mem_cons_self).1
    refine (matchAt_yields (by omega)).bind fun found _ => .ite (fun _ => .ok (Nat.zero_le _)) ?_
    intro _
    refine (ih fun k hk => h k (List.mem_cons_of_mem key hk)).bind fun offset hoffset => .ok ?_
    rw [List.length_cons]
    omega

theorem countValue_yields {place : Nat} {values : List MapValue}
    (hplace : place + map.sizeValue ≤ inp.length)
    (h : ∀ v ∈ values, map.ValueFits inp.length v) :
    Yields (map.countValue inp place values)
      fun values' => ∀ v ∈ values', map.ValueFits inp.length v := by
  induction values with
  | nil => exact .ok (by simp)
  | cons v values ih =>
    have hv := h v List.mem_cons_self
    have hrest := fun v' hv' => h v' (List.mem_cons_of_mem v hv')
    refine .ite (fun _ => .ok ?_) fun hused => ?_
    · exact List.forall_mem_cons.2 ⟨.inr hplace, hrest⟩
    · have hin : v.valueIdx + map.sizeValue ≤ inp.length := hv.resolve_left hused
      refine (sameAt_yields hplace hin).bind fun found _ => .ite (fun _ => .ok ?_) fun _ => ?_
      · exact List.forall_mem_cons.2 ⟨hv, hrest⟩
      · exact (ih hrest).bind fun values' hvalues' => .ok (List.forall_mem_cons.2 ⟨hv, hvalues'⟩)

theorem countValues_yields {n : Nat} (hgram : gram.length = map.sizeKey)
    (hn : n = 0 ∨ i + n + map.sizeKey + map.sizeValue ≤ inp.length + 1)
    (h : ∀ v ∈ values, map.ValueFits inp.length v) :
    Yields (map.countValues inp gram n i values)
      fun values' => ∀ v ∈ values', map.ValueFits inp.length v := by
  induction n generalizing i values with
  | zero => exact .ok h
  | succ n ih =>
    refine (matchAt_yields (by omega)).bind fun found _ => .ite (fun _ => ?_) fun _ => ?_
    · have hvalue := @countValue_yields map inp (i + map.sizeKey) values (by omega) h
      exact hvalue.bind fun values' hvalues' => ih (by omega) hvalues'
    · exact ih (by omega) h

theorem printValues_yields (h : ∀ v ∈ values, map.ValueFits inp.length v) :
    Yields (map.printValues inp values) fun _ => True := by
  induction values with
  | nil => exact .ok trivial
  | cons v values ih =>
    have ih := ih fun v' hv' => h v' (List.mem_cons_of_mem v hv')
    refine .ite (fun hused => ?_) fun _ => ih
    exact (copyFrom_yields ((h v List.mem_cons_self).resolve_left hused)).bind fun _ _ => ih

theorem draftTokens_yields {slot : Nat} (h : matchPos + map.sizeKey + map.sizeValue ≤ inp.length) :
    Yields (map.draftTokens inp matchPos values slot) fun _ => True :=
  (copyFrom_yields (by omega)).imp fun _ _ => trivial

theorem Fits.set {offset : Nat} {key : MapKey} (h : map.Fits len) (hkey : map.KeyFits len key) :
    ∀ k ∈ map.keys.set offset key, map.KeyFits len k := by
  intro k hk
  rcases List.mem_or_eq_of_mem_set hk with hmem | rfl
  · exact h k hmem
  · exact hkey

/-- What a call leaves alone. -/
structure Same (map map' : NgramMap) : Prop where
  sizeKey : map'.sizeKey = map.sizeKey
  sizeValue : map'.sizeValue = map.sizeValue
  keyOnly : map'.keyOnly = map.keyOnly
  sizeLastBegin : map'.sizeLastBegin = map.sizeLastBegin

theorem Fits.congr {map' : NgramMap} (hsame : Same map map')
    (h : ∀ key ∈ map'.keys, map.KeyFits len key) : map'.Fits len := by
  intro key hkey
  obtain ⟨hidx, hvalues⟩ := h key hkey
  refine ⟨hsame.sizeKey ▸ hidx, fun hmode v hv => ?_⟩
  have hv := hvalues (hsame.keyOnly ▸ hmode) v hv
  rwa [ValueFits, ← hsame.sizeValue] at hv

/-- A key of the map is used within the history. -/
theorem draftKey_yields {offset : Nat} {key : MapKey} (hgram : gram.length = map.sizeKey)
    (hmatch : matchPos + (map.sizeKey + map.sizeValue + 1) ≤ inp.length)
    (hfits : map.Fits inp.length) (hkey : map.KeyFits inp.length key) :
    Yields (map.draftKey inp gram matchPos offset key) fun r =>
      Same map r.1 ∧ r.1.idxLastCheck = map.idxLastCheck ∧ r.1.Fits inp.length := by
  rw [draftKey]
  have hset : ∀ {key' : MapKey} {created : Bool} {keyIdx valueIdx : Nat},
      map.KeyFits inp.length key' →
      ({ map with
        keys := map.keys.set offset key', lastDraftCreated := created
        lastDraftKeyIdx := keyIdx, lastDraftValueIdx := valueIdx } : NgramMap).Fits inp.length :=
    fun hkey' => .congr ⟨rfl, rfl, rfl, rfl⟩ (hfits.set hkey')
  refine .ite (fun _ => ?_) fun hmode => .ite (fun _ => ?_) fun _ => ?_
  · refine (draftTokens_yields (by omega)).bind fun draft _ => .ok ⟨⟨rfl, rfl, rfl, rfl⟩, rfl, ?_⟩
    exact hset hkey
  · exact .ok ⟨⟨rfl, rfl, rfl, rfl⟩, rfl, hset hkey⟩
  · have hmode : map.keyOnly = false := by simpa using hmode
    refine (countValues_yields hgram (by omega) (hkey.2 hmode)).bind fun values hvalues => ?_
    have hkey' : map.KeyFits inp.length
        { key with keyNum := min (key.keyNum + 1) maxValueCount, values := values,
                   statIdx := matchPos } := ⟨hkey.1, fun _ => hvalues⟩
    refine (printValues_yields hvalues).bind fun _ _ => .ite (fun _ => ?_) fun _ => ?_
    · exact .ok ⟨⟨rfl, rfl, rfl, rfl⟩, rfl, hset hkey'⟩
    · refine (draftTokens_yields (by omega)).bind fun draft _ =>
        .ok ⟨⟨rfl, rfl, rfl, rfl⟩, rfl, ?_⟩
      exact hset hkey'

theorem newKey_fits (h : matchPos + map.sizeKey ≤ len) : map.KeyFits len (newKey map matchPos) := by
  refine ⟨h, fun _ v hv => .inl ?_⟩
  rw [List.eq_of_mem_replicate hv]

/-- The search for a draft reads within the history. -/
theorem draftSearch_yields (hkey : 1 ≤ map.sizeKey)
    (hlen : 2 * map.sizeKey + map.sizeValue ≤ inp.length)
    (hbegin : map.sizeLastBegin ≤ inp.length) (hfits : map.Fits inp.length) :
    Yields (map.draftSearch inp sampled) fun r =>
      Same map r.1 ∧ r.1.idxLastCheck = map.idxLastCheck ∧ r.1.Fits inp.length := by
  refine (keyTokens_yields hkey (by omega)).bind fun gram hgram => ?_
  refine (findMatch_yields hgram (by omega) hbegin).bind fun matchPos hmatch => ?_
  refine (addHashes_yields (by omega) hbegin).bind ?_
  rintro _ ⟨keyMap, last, rfl⟩
  refine .ite (fun _ => .ok ⟨⟨rfl, rfl, rfl, rfl⟩, rfl, hfits⟩) fun _ => ?_
  refine (findKey_yields hgram hfits).bind fun offset hoffset => ?_
  have hnew : map.KeyFits inp.length (newKey map matchPos) := newKey_fits (by omega)
  -- The keys are those of the map, and perhaps the new one.
  have hall : ∀ k ∈ (if offset = map.keys.length then map.keys ++ [newKey map matchPos]
      else map.keys), map.KeyFits inp.length k := by
    intro k hk
    split at hk
    · rcases List.mem_append.1 hk with hk | hk
      · exact hfits k hk
      · rw [List.mem_singleton.1 hk]
        exact hnew
    · exact hfits k hk
  have hused : ∀ keys : List MapKey, (∀ k ∈ keys, map.KeyFits inp.length k) →
      map.KeyFits inp.length (keys.getD offset (newKey map matchPos)) := by
    intro keys hkeys
    rw [List.getD_eq_getElem?_getD]
    cases hget : keys[offset]? with
    | none => exact hnew
    | some k => exact hkeys k (List.mem_of_getElem? hget)
  refine Yields.imp (draftKey_yields hgram hmatch hall (hused _ hall)) ?_
  rintro r ⟨hsame, hlast, hfits'⟩
  exact ⟨⟨hsame.sizeKey, hsame.sizeValue, hsame.keyOnly, hsame.sizeLastBegin⟩, hlast, hfits'⟩

/-! ### `begin` and `accept` -/

/-- A value that is kept lies in the history that is left. -/
theorem mem_pruneValues {sizeLastBegin : Nat} {v : MapValue}
    (h : v ∈ pruneValues sizeLastBegin values) :
    v.valueIdx = 0 ∨ v.valueIdx < sizeLastBegin ∧ ∃ v₀ ∈ values, v₀.valueIdx = v.valueIdx := by
  induction values with
  | nil => cases h
  | cons v₁ values ih =>
    have hlater : v ∈ pruneValues sizeLastBegin values → v.valueIdx = 0 ∨
        v.valueIdx < sizeLastBegin ∧ ∃ v₀ ∈ v₁ :: values, v₀.valueIdx = v.valueIdx := by
      intro hv
      refine (ih hv).imp_right fun ⟨hlt, v₀, hv₀, heq⟩ => ?_
      exact ⟨hlt, v₀, List.mem_cons_of_mem v₁ hv₀, heq⟩
    rw [pruneValues, List.foldr_cons] at h
    split at h
    · rcases List.mem_append.1 h with h | h
      · exact hlater h
      · rw [List.mem_singleton.1 h]
        exact .inl rfl
    · rename_i hlt
      rcases List.mem_cons.1 h with rfl | h
      · exact .inr ⟨Nat.lt_of_not_le hlt, v, List.mem_cons_self, rfl⟩
      · exact hlater h

/-- The places that `begin` keeps when it refreshes the map end in a history of the length. -/
def KeptFits (map : NgramMap) (len : Nat) : Prop :=
  ∀ key ∈ map.keys, key.keyIdx < map.sizeLastBegin →
    key.keyIdx + map.sizeKey ≤ len ∧
      (map.keyOnly = false → ∀ v ∈ key.values, v.valueIdx < map.sizeLastBegin →
        map.ValueFits len v)

instance (map : NgramMap) (len : Nat) : Decidable (map.KeptFits len) :=
  inferInstanceAs (Decidable (∀ key ∈ map.keys, _))

/-- A key that is kept fits the shorter history. -/
theorem refreshKey_fits {key key' : MapKey} (hkey : key ∈ map.keys) (hkept : map.KeptFits len)
    (h : map.refreshKey key = some key') : map.KeyFits len key' := by
  rw [refreshKey] at h
  by_cases hidx : map.sizeLastBegin ≤ key.keyIdx
  · rw [if_pos hidx] at h
    cases h
  · obtain ⟨hgram, hvalues⟩ := hkept key hkey (Nat.lt_of_not_le hidx)
    rw [if_neg hidx] at h
    cases hmode : map.keyOnly with
    | true =>
      rw [hmode] at h
      cases h
      exact ⟨hgram, fun hno => by rw [hmode] at hno; cases hno⟩
    | false =>
      rw [hmode] at h
      simp only [Bool.false_eq_true, if_false, Option.ite_none_left_eq_some] at h
      obtain ⟨-, h⟩ := h
      cases h
      refine ⟨hgram, fun _ v hv => ?_⟩
      rcases mem_pruneValues hv with hzero | ⟨hlt, v₀, hv₀, heq⟩
      · exact .inl hzero
      · have hv₀ := hvalues hmode v₀ hv₀ (heq ▸ hlt)
        rwa [ValueFits, heq] at hv₀

theorem start_fits {tokens : List Token} (hfits : map.Fits map.idxLastCheck)
    (hkept : tokens.length < map.idxLastCheck → map.KeptFits tokens.length) :
    (map.start tokens).Fits (map.start tokens).idxLastCheck := by
  intro key hkey
  show map.KeyFits tokens.length key
  by_cases hshort : tokens.length < map.idxLastCheck
  · have hkey : key ∈ map.keys.filterMap (refreshKey map) := by simpa [start, hshort] using hkey
    obtain ⟨key₀, hkey₀, href⟩ := List.mem_filterMap.1 hkey
    exact refreshKey_fits hkey₀ (hkept hshort) href
  · have hkey : key ∈ map.keys := by simpa [start, hshort] using hkey
    exact hfits.mono (Nat.le_of_not_lt hshort) key hkey

/-- A change in place keeps what holds of each entry and its new value. -/
theorem forall_mem_modify {α : Type} {p : α → Prop} {f : α → α} {l : List α} (i : Nat)
    (h : ∀ a ∈ l, p a) (hf : ∀ a, p a → p (f a)) : ∀ a ∈ l.modify i f, p a := by
  intro a ha
  obtain ⟨j, hj⟩ := List.mem_iff_getElem?.1 ha
  rw [List.getElem?_modify] at hj
  obtain ⟨b, hb, hab⟩ := Option.map_eq_some_iff.1 hj
  have hpb := h b (List.mem_of_getElem? hb)
  split at hab
  · exact hab ▸ hf b hpb
  · exact hab ▸ hpb

theorem accept_fits {nAccepted : Nat} (hfits : map.Fits len) : (map.accept nAccepted).Fits len := by
  rw [accept]
  by_cases hcreated : map.lastDraftCreated = true
  · rw [if_pos hcreated]
    refine .congr ⟨rfl, rfl, rfl, rfl⟩ (forall_mem_modify _ hfits ?_)
    rintro key ⟨hidx, hvalues⟩
    exact ⟨hidx, fun hmode => forall_mem_modify _ (hvalues hmode) fun v hv => hv.imp id id⟩
  · rwa [if_neg hcreated]

theorem accept_same (map : NgramMap) (nAccepted : Nat) :
    Same map (map.accept nAccepted) ∧ (map.accept nAccepted).idxLastCheck = map.idxLastCheck := by
  rw [accept]
  split <;> exact ⟨⟨rfl, rfl, rfl, rfl⟩, rfl⟩

end

/-! ### Runs -/

/-- A history that is shorter than the last one seen comes only when the places that are kept end
in it. -/
def Keeps (s : Session) : Call → Prop
  | .start tokens => tokens.length < s.map.idxLastCheck → s.map.KeptFits tokens.length
  | .draft inp _ =>
    2 * s.map.sizeKey + s.map.sizeValue ≤ inp.length → inp.length < s.map.idxLastCheck →
      s.map.Fits inp.length
  | .accept _ => True

instance (s : Session) : (call : Call) → Decidable (Keeps s call)
  | .start _ => inferInstanceAs (Decidable (_ → _))
  | .draft _ _ => inferInstanceAs (Decidable (_ → _ → _))
  | .accept _ => inferInstanceAs (Decidable True)

structure Inv (s : Session) : Prop where
  sizeKey : 1 ≤ s.map.sizeKey
  begins : s.map.sizeLastBegin = s.history.length
  fits : s.map.Fits s.map.idxLastCheck

/-- A draft in range: it aborts on a history that is too long, or it keeps the invariant. -/
theorem Inv.draft {s : Session} (h : Inv s) {inp : List Token} (hext : s.history <+: inp)
    (hkeeps : Keeps s (.draft inp sampled)) :
    s.map.draft inp sampled = .error .aborts ∨
      Yields (s.map.draft inp sampled) fun r => Inv { s with map := r.1 } := by
  by_cases hearly : inp.length < 2 * s.map.sizeKey + s.map.sizeValue
  · right
    rw [NgramMap.draft, if_pos hearly]
    exact .ok ⟨h.sizeKey, h.begins, h.fits⟩
  · by_cases hlarge : 2 ^ 32 - 1 ≤ inp.length
    · left
      exact (if_neg hearly).trans (if_pos hlarge)
    · right
      have hfits : s.map.Fits inp.length := by
        by_cases hshort : inp.length < s.map.idxLastCheck
        · exact hkeeps (Nat.le_of_not_lt hearly) hshort
        · exact h.fits.mono (Nat.le_of_not_lt hshort)
      have hbegin : s.map.sizeLastBegin ≤ inp.length := h.begins ▸ hext.length_le
      rw [show s.map.draft inp sampled = _ from (if_neg hearly).trans (if_neg hlarge)]
      refine Yields.imp (draftSearch_yields h.sizeKey (Nat.le_of_not_lt hearly) hbegin hfits) ?_
      rintro r ⟨hsame, hlast, hfits'⟩
      exact ⟨hsame.sizeKey ▸ h.sizeKey, hsame.sizeLastBegin.trans h.begins, hlast ▸ hfits'⟩

/-- Every call that keeps the history's beginning keeps the invariant. -/
theorem Inv.step {s s' : Session} {call : Call} (h : Inv s) (hkeeps : Keeps s call)
    (hstep : s.step call = some s') : Inv s' := by
  cases call with
  | start tokens =>
    cases hstep
    exact ⟨h.sizeKey, rfl, start_fits h.fits hkeeps⟩
  | draft inp sampled =>
    by_cases hext : s.history <+: inp
    · simp only [Session.step, if_pos hext] at hstep
      rcases h.draft hext hkeeps with haborts | ⟨⟨map', draft⟩, hdraft, hinv⟩
      · rw [haborts] at hstep
        cases hstep
      · rw [hdraft] at hstep
        cases hstep
        exact hinv
    · simp only [Session.step, if_neg hext] at hstep
      cases hstep
  | accept nAccepted =>
    cases hstep
    obtain ⟨hsame, hlast⟩ := accept_same s.map nAccepted
    refine ⟨hsame.sizeKey ▸ h.sizeKey, hsame.sizeLastBegin.trans h.begins, ?_⟩
    exact hlast ▸ accept_fits h.fits

/-- A new map. -/
def fresh (sizeKey sizeValue : Nat) (keyOnly : Bool) (minHits keyMapSize : Nat) : Session :=
  { map := { sizeKey, sizeValue, keyOnly, minHits, keyMapSize } }

/-- In every run whose shorter histories hold the places that are kept, the next draft reads its
history inside and subtracts without wrapping. -/
theorem draft_inRange (sizeKey sizeValue : Nat) (keyOnly : Bool) (minHits keyMapSize : Nat)
    (hkey : 1 ≤ sizeKey) (s : Session)
    (hrun : Runs (fresh sizeKey sizeValue keyOnly minHits keyMapSize) Session.step Keeps s)
    (inp : List Token) (sampled : Token) (hext : s.history <+: inp)
    (hkeeps : Keeps s (.draft inp sampled)) : inRange (s.map.draft inp sampled) = true := by
  have hinit : Inv (fresh sizeKey sizeValue keyOnly minHits keyMapSize) :=
    ⟨hkey, rfl, fun key hmem => by cases hmem⟩
  have hinv : Inv s := hrun.invariant hinit fun s a s' => Inv.step
  rcases hinv.draft hext hkeeps with haborts | ⟨r, hr, -⟩
  · rw [haborts]
    rfl
  · rw [hr]
    rfl

/-- A history of ten tokens, in which the sampled token stands at the place 7. -/
def longHistory : List Call :=
  [.start [0, 7, 1, 2, 3, 4, 5, 8, 6, 9], .draft [0, 7, 1, 2, 3, 4, 5, 8, 6, 9] 8]

theorem draft_inRange_longer :
    inRange ((Runs.last Session.step (fresh 1 1 false 1 262144) longHistory).map.draft
      [0, 7, 1, 2, 3, 4, 5, 8, 6, 9, 8] 5) = true := by
  have hall : Runs.Allowed Session.step Keeps (fresh 1 1 false 1 262144) longHistory := by
    decide +kernel
  exact draft_inRange 1 1 false 1 262144 (by decide) _ (Runs.of_allowed .init hall) _ _
    (by decide +kernel) (by decide +kernel)

/-- After it, a history of four tokens keeps the key at the place 7, which the next draft reads. -/
theorem draft_outOfRange :
    ¬ ∀ (sizeKey sizeValue : Nat) (keyOnly : Bool) (minHits keyMapSize : Nat), 1 ≤ sizeKey →
      1 ≤ sizeValue → ∀ s : Session,
        Runs (fresh sizeKey sizeValue keyOnly minHits keyMapSize) Session.step (fun _ _ => True) s →
        ∀ (inp : List Token) (sampled : Token), s.history <+: inp →
          inRange (s.map.draft inp sampled) = true := by
  intro h
  have hall : Runs.Allowed Session.step (fun _ _ => True) (fresh 1 1 false 1 262144)
      (longHistory ++ [.start [0, 7, 1, 2]]) := by decide +kernel
  have hno := h 1 1 false 1 262144 (by decide) (by decide) _ (Runs.of_allowed .init hall)
    [0, 7, 1, 2, 3] 7 (by decide +kernel)
  revert hno
  decide +kernel

end PxqLlama.Spec.NgramMap
