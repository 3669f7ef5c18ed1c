import PxqLlama.Proofs.Server.TokenMedia

/-!
# `Proofs.Server.ThinkMedia`: media and the thinking tags

`get_tokens_exclude_think` keeps some places of a list and leaves out the others. The list that it
makes is well formed exactly when no chunk with its first place kept loses another one
(`pick_wellFormed_iff`).

The null tokens of a chunk add nothing to the text, but the loop goes on to the next span at each
of them as long as the text is behind the span. So a chunk is cut when the text in front of it is
behind several spans that the loop has not passed yet, and then inside one (`CutAt`,
`excludeThink_wellFormed_iff`).
-/

namespace PxqLlama.Server

/-! ### Increasing lists of places -/

section Increasing

variable {K : List Nat} (hK : K.Pairwise (· < ·))

include hK

theorem place_lt {i j a b : Nat} (hi : K[i]? = some a) (hj : K[j]? = some b) (hij : i < j) :
    a < b := by
  obtain ⟨hilt, rfl⟩ := List.getElem?_eq_some_iff.mp hi
  obtain ⟨hjlt, rfl⟩ := List.getElem?_eq_some_iff.mp hj
  exact List.pairwise_iff_getElem.mp hK i j hilt hjlt hij

theorem index_lt {i j a b : Nat} (hi : K[i]? = some a) (hj : K[j]? = some b) (hab : a < b) :
    i < j := by
  rcases Nat.lt_trichotomy i j with h | h | h
  · exact h
  · subst h
    rw [hi] at hj
    exact absurd (Option.some.inj hj) (Nat.ne_of_lt hab)
  · exact absurd (place_lt hK hj hi h) (Nat.lt_asymm hab)

/-- No place between two neighbours is in the list. -/
theorem not_mem_between {i a b y : Nat} (hi : K[i]? = some a) (hj : K[i + 1]? = some b)
    (hay : a < y) (hyb : y < b) : y ∉ K := by
  intro hy
  obtain ⟨n, hn⟩ := List.getElem?_of_mem hy
  have hlow := index_lt hK hi hn hay
  have hhigh := index_lt hK hn hj hyb
  omega

/-- Places that follow one another are neighbours. -/
theorem getElem?_succ {i a : Nat} (hi : K[i]? = some a) (hmem : a + 1 ∈ K) :
    K[i + 1]? = some (a + 1) := by
  obtain ⟨n, hn⟩ := List.getElem?_of_mem hmem
  have hin : i < n := index_lt hK hi hn (Nat.lt_succ_self a)
  obtain ⟨hlen, -⟩ := List.getElem?_eq_some_iff.mp hn
  obtain ⟨b, hb⟩ : ∃ b, K[i + 1]? = some b := ⟨_, List.getElem?_eq_getElem (by omega)⟩
  have hab : a < b := place_lt hK hi hb (Nat.lt_succ_self i)
  rcases Nat.eq_or_lt_of_le (show a + 1 ≤ b from hab) with heq | hlt
  · rw [hb, heq]
  · have hbetween := not_mem_between hK hi hb (Nat.lt_succ_self a) hlt
    exact absurd hmem hbetween

/-- So is a run of places. -/
theorem getElem?_run {i a n : Nat} (hi : K[i]? = some a) (hmem : ∀ x < n, a + x ∈ K) :
    ∀ x < n, K[i + x]? = some (a + x) := by
  intro x hx
  induction x with
  | zero => exact hi
  | succ x ih => exact getElem?_succ hK (ih (Nat.lt_of_succ_lt hx)) (hmem (x + 1) hx)

end Increasing

namespace ServerTokens

/-! ### Keeping some places of a list -/

/-- The place `k` of the list `s`, kept at the end of `res`. -/
def keepPlace (s res : ServerTokens) (k : Nat) : ServerTokens := { res with
  tokens := res.tokens ++ [s.tokens.getD k 0]
  mapIdxToMedia := match s.findChunk k with
    | some chunk => res.mapIdxToMedia.insert res.tokens.length chunk
    | none => res.mapIdxToMedia }

theorem foldl_keepPlace_tokens (s res : ServerTokens) (K : List Nat) :
    (K.foldl (keepPlace s) res).tokens = res.tokens ++ K.map (s.tokens.getD · 0) := by
  induction K generalizing res with
  | nil => exact (List.append_nil _).symm
  | cons k K ih =>
    rw [List.foldl_cons, ih, List.map_cons]
    show res.tokens ++ [_] ++ _ = _
    rw [List.append_assoc]
    rfl

variable {s : ServerTokens} {p : Nat × InputChunk} {spans : List (Nat × Nat)}

variable {res : ServerTokens} {K : List Nat}

/-- One kept place brings the chunk that begins there. -/
theorem mem_keepPlace {k : Nat} (hres : ∀ p ∈ res.mapIdxToMedia.entries, p.1 < res.size) :
    p ∈ (keepPlace s res k).mapIdxToMedia.entries ↔
      p ∈ res.mapIdxToMedia.entries ∨
      (p.1 = res.size ∧ (k, p.2) ∈ s.mapIdxToMedia.entries) := by
  rw [show (k, p.2) ∈ s.mapIdxToMedia.entries ↔ s.mapIdxToMedia.find k = some p.2 from
    OrderedMap.find_eq_some.symm]
  show p ∈ OrderedMap.entries (match s.mapIdxToMedia.find k with
    | some chunk => res.mapIdxToMedia.insert res.size chunk
    | none => res.mapIdxToMedia) ↔ _
  cases hfind : s.mapIdxToMedia.find k with
  | none =>
    constructor
    · exact Or.inl
    · intro h
      exact h.resolve_right fun h => nomatch h.2
  | some chunk =>
    simp only [OrderedMap.mem_insert, Option.some_inj]
    constructor
    · intro h
      rcases h with heq | ⟨hp, -⟩
      · exact Or.inr ⟨heq ▸ rfl, heq ▸ rfl⟩
      · exact Or.inl hp
    · intro h
      rcases h with hp | ⟨hkey, hchunk⟩
      · exact Or.inr ⟨hp, Nat.ne_of_lt (hres p hp)⟩
      · exact Or.inl (Prod.ext hkey hchunk.symm)

/-- The media of the kept places, each at its new index. -/
theorem mem_foldl_keepPlace (hres : ∀ p ∈ res.mapIdxToMedia.entries, p.1 < res.size) :
    p ∈ (K.foldl (keepPlace s) res).mapIdxToMedia.entries ↔
      p ∈ res.mapIdxToMedia.entries ∨
      ∃ i k, p.1 = res.size + i ∧ K[i]? = some k ∧ (k, p.2) ∈ s.mapIdxToMedia.entries := by
  induction K generalizing res with
  | nil =>
    constructor
    · exact Or.inl
    · intro h
      rcases h with h | ⟨_, _, -, h, -⟩
      · exact h
      · exact nomatch h
  | cons k K ih =>
    have hsize : (keepPlace s res k).size = res.size + 1 := List.length_append
    have hnext : ∀ p ∈ (keepPlace s res k).mapIdxToMedia.entries,
        p.1 < (keepPlace s res k).size := by
      intro q hq
      rw [hsize]
      rcases (mem_keepPlace hres).mp hq with hq | ⟨hq, -⟩
      · have hlt := hres q hq
        omega
      · omega
    rw [List.foldl_cons, ih hnext, mem_keepPlace hres, hsize]
    constructor
    · intro h
      rcases h with (h | ⟨hkey, hchunk⟩) | ⟨i, k', hkey, hget, hchunk⟩
      · exact Or.inl h
      · exact Or.inr ⟨0, k, hkey, rfl, hchunk⟩
      · exact Or.inr ⟨i + 1, k', by omega, hget, hchunk⟩
    · intro h
      rcases h with h | ⟨i, k', hkey, hget, hchunk⟩
      · exact Or.inl (Or.inl h)
      · cases i with
        | zero =>
          obtain rfl := Option.some.inj hget
          exact Or.inl (Or.inr ⟨hkey, hchunk⟩)
        | succ i => exact Or.inr ⟨i, k', by omega, hget, hchunk⟩

/-- The list that keeps the places `K`. -/
def pick (s : ServerTokens) (K : List Nat) : ServerTokens :=
  K.foldl (keepPlace s) { hasMtmd := s.hasMtmd }

theorem pick_getElem? (hlt : ∀ k ∈ K, k < s.size) (i : Nat) :
    (s.pick K).tokens[i]? = K[i]?.bind fun k => s.tokens[k]? := by
  rw [pick, foldl_keepPlace_tokens]
  show (K.map _)[i]? = _
  rw [List.getElem?_map]
  cases hget : K[i]? with
  | none => rfl
  | some k =>
    have hk : k < s.tokens.length := hlt k (List.mem_of_getElem? hget)
    show some (s.tokens.getD k 0) = s.tokens[k]?
    rw [List.getD_eq_getElem?_getD, List.getElem?_eq_getElem hk]
    rfl

theorem pick_size (s : ServerTokens) (K : List Nat) : (s.pick K).size = K.length := by
  rw [size, pick, foldl_keepPlace_tokens]
  show (K.map _).length = _
  rw [List.length_map]

theorem mem_pick :
    p ∈ (s.pick K).mapIdxToMedia.entries ↔
      ∃ k, K[p.1]? = some k ∧ (k, p.2) ∈ s.mapIdxToMedia.entries := by
  have hnone : ∀ q ∈ (OrderedMap.empty (α := InputChunk)).entries,
      q.1 < size { hasMtmd := s.hasMtmd } := fun _ hq => nomatch hq
  rw [pick, mem_foldl_keepPlace hnone]
  constructor
  · intro h
    rcases h with h | ⟨i, k, hkey, hget, hchunk⟩
    · exact nomatch h
    · have hi : p.1 = i := hkey.trans (Nat.zero_add i)
      exact ⟨k, hi ▸ hget, hchunk⟩
  · intro h
    obtain ⟨k, hget, hchunk⟩ := h
    exact Or.inr ⟨p.1, k, (Nat.zero_add _).symm, hget, hchunk⟩

/-- A kept place of a chunk keeps the first one, when no null token is kept behind a place that is
not. -/
theorem first_mem (hs : s.WellFormed)
    (hbehind : ∀ i, i ∉ K → s.tokens[i + 1]? = some llamaTokenNull → i + 1 ∉ K)
    (hp : p ∈ s.mapIdxToMedia.entries) {k : Nat} (hle : p.1 ≤ k) (hlt : k < p.1 + p.2.nTokens)
    (hk : k ∈ K) : p.1 ∈ K := by
  by_contra hno
  have hnone : ∀ x, p.1 + x ≤ k → p.1 + x ∉ K := by
    intro x
    induction x with
    | zero => exact fun _ => hno
    | succ x ih =>
      intro hx
      have hprev := ih (Nat.le_of_succ_le hx)
      exact hbehind (p.1 + x) hprev ((hs.nulls _).mpr ⟨p, hp, by omega, by omega⟩)
  have hend := hnone (k - p.1) (by omega)
  rw [show p.1 + (k - p.1) = k by omega] at hend
  exact hend hk

/-- A list of kept places is well formed exactly when every chunk whose first place is kept stays
whole, given that no null token is kept behind a place that is not. -/
theorem pick_wellFormed_iff (hs : s.WellFormed) (hK : K.Pairwise (· < ·))
    (hlt : ∀ k ∈ K, k < s.size)
    (hbehind : ∀ i, i ∉ K → s.tokens[i + 1]? = some llamaTokenNull → i + 1 ∉ K) :
    (s.pick K).WellFormed ↔
      ∀ p ∈ s.mapIdxToMedia.entries, p.1 ∈ K → ∀ x < p.2.nTokens, p.1 + x ∈ K := by
  constructor
  · intro hwf p hp hkept
    obtain ⟨j, hj⟩ := List.getElem?_of_mem hkept
    have hmem : (j, p.2) ∈ (s.pick K).mapIdxToMedia.entries := mem_pick.mpr ⟨p.1, hj, hp⟩
    have hin : j + p.2.nTokens ≤ K.length := by
      rw [← pick_size s K]
      exact hwf.inside _ hmem
    have hrun : ∀ x < p.2.nTokens, K[j + x]? = some (p.1 + x) := by
      intro x hx
      induction x with
      | zero => exact hj
      | succ x ih =>
        have hhere := ih (Nat.lt_of_succ_lt hx)
        obtain ⟨m, hm⟩ : ∃ m, K[j + x + 1]? = some m := ⟨_, List.getElem?_eq_getElem (by omega)⟩
        -- The next kept place holds a null token, so the place in front of it is kept too.
        have hnull : s.tokens[m]? = some llamaTokenNull := by
          have hpicked := (hwf.nulls (j + x + 1)).mpr
            ⟨_, hmem, by simp only; omega, by simp only; omega⟩
          rw [pick_getElem? hlt, hm] at hpicked
          exact hpicked
        have hafter : p.1 + x < m := place_lt hK hhere hm (Nat.lt_succ_self _)
        rcases Nat.eq_or_lt_of_le (show p.1 + x + 1 ≤ m from hafter) with heq | hgap
        · show K[j + x + 1]? = some (p.1 + x + 1)
          rw [hm, heq]
        · have hout : m - 1 ∉ K := not_mem_between hK hhere hm (by omega) (by omega)
          have hpred : m - 1 + 1 = m := by omega
          have hnot := hbehind (m - 1) hout (by rw [hpred]; exact hnull)
          rw [hpred] at hnot
          exact absurd (List.mem_of_getElem? hm) hnot
    intro x hx
    exact List.mem_of_getElem? (hrun x hx)
  · intro hwhole
    -- A kept chunk lies in the new list as it lay in the old one.
    have hplaces : ∀ j k chunk, K[j]? = some k → (k, chunk) ∈ s.mapIdxToMedia.entries →
        ∀ x < chunk.nTokens, K[j + x]? = some (k + x) := by
      intro j k chunk hj hp
      exact getElem?_run hK hj (hwhole _ hp (List.mem_of_getElem? hj))
    constructor
    · intro p hp
      obtain ⟨k, hk, hchunk⟩ := mem_pick.mp hp
      rw [pick_size]
      have hplace := hplaces p.1 k p.2 hk hchunk
      obtain ⟨hj, -⟩ := List.getElem?_eq_some_iff.mp hk
      by_contra hout
      obtain ⟨hend, -⟩ := List.getElem?_eq_some_iff.mp (hplace (p.2.nTokens - 1) (by omega))
      omega
    · intro p hp q hq hpq
      obtain ⟨k, hk, hchunk⟩ := mem_pick.mp hp
      obtain ⟨k', hk', hchunk'⟩ := mem_pick.mp hq
      have hplace := hplaces p.1 k p.2 hk hchunk
      have hkk : k < k' := place_lt hK hk hk' hpq
      have hdis : k + p.2.nTokens ≤ k' := hs.disjoint _ hchunk _ hchunk' hkk
      by_contra hout
      have hlast := hplace (p.2.nTokens - 1) (by omega)
      have hidx := index_lt hK hlast hk' (by omega)
      omega
    · intro i
      rw [pick_getElem? hlt]
      constructor
      · intro hnull
        obtain ⟨k, hk, hnull⟩ := Option.bind_eq_some_iff.mp hnull
        obtain ⟨p, hp, hle, hltn⟩ := (hs.nulls k).mp hnull
        have hfirst : p.1 ∈ K := first_mem hs hbehind hp hle hltn (List.mem_of_getElem? hk)
        obtain ⟨j, hj⟩ := List.getElem?_of_mem hfirst
        have hplace := hplaces j p.1 p.2 hj hp (k - p.1) (by omega)
        rw [show p.1 + (k - p.1) = k by omega] at hplace
        have hij : i = j + (k - p.1) := by
          rcases Nat.lt_trichotomy i (j + (k - p.1)) with h | h | h
          · exact absurd (place_lt hK hk hplace h) (Nat.lt_irrefl k)
          · exact h
          · exact absurd (place_lt hK hplace hk h) (Nat.lt_irrefl k)
        exact ⟨(j, p.2), mem_pick.mpr ⟨p.1, hj, hp⟩, by simp only; omega, by simp only; omega⟩
      · intro hrun
        obtain ⟨p, hp, hle, hltn⟩ := hrun
        obtain ⟨k, hk, hchunk⟩ := mem_pick.mp hp
        have hplace := hplaces p.1 k p.2 hk hchunk (i - p.1) (by omega)
        rw [show p.1 + (i - p.1) = i by omega] at hplace
        rw [hplace]
        show s.tokens[k + (i - p.1)]? = _
        exact (hs.nulls _).mpr ⟨_, hchunk, by simp only; omega, by simp only; omega⟩

/-! ### The loop of `get_tokens_exclude_think` -/

/-- The text length behind a token. -/
def readLen (txt : TokenText) (len : Nat) (t : Int) : Nat :=
  if t ≠ llamaTokenNull then len + (txt.piece t).length else len

/-- A text length lies in the span `q`. -/
def InSpan (spans : List (Nat × Nat)) (q len : Nat) : Prop :=
  (spans.getD q (0, 0)).1 < len ∧ len ≤ (spans.getD q (0, 0)).2
deriving Decidable

/-- It lies behind the span. -/
def Passed (spans : List (Nat × Nat)) (q len : Nat) : Prop :=
  (spans.getD q (0, 0)).1 < len ∧ (spans.getD q (0, 0)).2 < len
deriving Decidable

/-- The span that the loop goes on with. -/
def nextSpan (spans : List (Nat × Nat)) (len q : Nat) : Nat :=
  if Passed spans q len ∧ q + 1 < spans.length then q + 1 else q

/-- The text length and the span of the loop behind some tokens. -/
def thinkAt (txt : TokenText) (spans : List (Nat × Nat)) (tokens : List Int) : Nat × Nat :=
  tokens.foldl (fun st t =>
    let len := readLen txt st.1 t
    (len, nextSpan spans len st.2)) (0, 0)

/-- The loop leaves out the place `k`. -/
def Dropped (txt : TokenText) (spans : List (Nat × Nat)) (s : ServerTokens) (k : Nat) : Prop :=
  InSpan spans (thinkAt txt spans (s.tokens.take k)).2
    (readLen txt (thinkAt txt spans (s.tokens.take k)).1 (s.tokens.getD k 0))
deriving Decidable

theorem nextSpan_of_inSpan {q len : Nat} (h : InSpan spans q len) : nextSpan spans len q = q := by
  rw [nextSpan, if_neg]
  intro hpass
  exact absurd hpass.1.2 (Nat.not_lt.mpr h.2)

theorem thinkAt_succ (txt : TokenText) (spans : List (Nat × Nat)) {tokens : List Int} {k : Nat}
    {t : Int} (hk : tokens[k]? = some t) :
    thinkAt txt spans (tokens.take (k + 1)) =
      (readLen txt (thinkAt txt spans (tokens.take k)).1 t,
        nextSpan spans (readLen txt (thinkAt txt spans (tokens.take k)).1 t)
          (thinkAt txt spans (tokens.take k)).2) := by
  rw [thinkAt, List.take_add_one, hk, List.foldl_append]
  rfl

/-- One token of the loop. -/
theorem excludeThink_cons (txt : TokenText) (s res : ServerTokens) (spans : List (Nat × Nat))
    {tokens : List Int} {t : Int} {n : Nat} (hdrop : s.tokens.drop n = t :: tokens) :
    excludeThink txt s spans (t :: tokens) n (thinkAt txt spans (s.tokens.take n)).1
        (thinkAt txt spans (s.tokens.take n)).2 res =
      excludeThink txt s spans tokens (n + 1) (thinkAt txt spans (s.tokens.take (n + 1))).1
        (thinkAt txt spans (s.tokens.take (n + 1))).2
        (if Dropped txt spans s n then res else keepPlace s res n) := by
  have hget : s.tokens[n]? = some t := by
    rw [← Nat.add_zero n, ← List.getElem?_drop, hdrop]
    rfl
  have hgetD : s.tokens.getD n 0 = t := by
    rw [List.getD_eq_getElem?_getD, hget]
    rfl
  have hdropped : Dropped txt spans s n ↔
      InSpan spans (thinkAt txt spans (s.tokens.take n)).2
        (readLen txt (thinkAt txt spans (s.tokens.take n)).1 t) := by
    rw [Dropped, hgetD]
  have hlen : (if t ≠ llamaTokenNull then
      (thinkAt txt spans (s.tokens.take n)).1 + (txt.piece t).length
      else (thinkAt txt spans (s.tokens.take n)).1) =
      readLen txt (thinkAt txt spans (s.tokens.take n)).1 t := rfl
  rw [excludeThink, thinkAt_succ txt spans hget, keepPlace, hgetD, hlen]
  generalize (thinkAt txt spans (s.tokens.take n)).2 = q at hdropped ⊢
  generalize readLen txt (thinkAt txt spans (s.tokens.take n)).1 t = len at hdropped ⊢
  by_cases hbefore : len ≤ (spans.getD q (0, 0)).1
  · have hout : ¬ Dropped txt spans s n := fun h => Nat.not_lt.mpr hbefore (hdropped.mp h).1
    have hstay : ¬ (Passed spans q len ∧ q + 1 < spans.length) :=
      fun h => Nat.not_lt.mpr hbefore h.1.1
    rw [if_neg hout, nextSpan, if_neg hstay]
    exact if_pos hbefore
  · by_cases hin : len ≤ (spans.getD q (0, 0)).2
    · have hspan : InSpan spans q len := ⟨Nat.lt_of_not_le hbefore, hin⟩
      rw [if_pos (hdropped.mpr hspan), nextSpan_of_inSpan hspan]
      exact (if_neg hbefore).trans (if_pos hin)
    · have hout : ¬ Dropped txt spans s n := fun h => hin (hdropped.mp h).2
      have hpass : Passed spans q len := ⟨Nat.lt_of_not_le hbefore, Nat.lt_of_not_le hin⟩
      rw [if_neg hout, nextSpan]
      simp only [hpass, true_and]
      exact (if_neg hbefore).trans (if_neg hin)

/-- The places that the loop keeps. -/
def keptPlaces (txt : TokenText) (spans : List (Nat × Nat)) (s : ServerTokens) : List Nat :=
  (List.range s.size).filter fun k => ¬ Dropped txt spans s k

theorem excludeThink_eq_foldl (txt : TokenText) (s : ServerTokens) (spans : List (Nat × Nat))
    (tokens : List Int) (n : Nat) (res : ServerTokens) (hdrop : s.tokens.drop n = tokens) :
    excludeThink txt s spans tokens n (thinkAt txt spans (s.tokens.take n)).1
        (thinkAt txt spans (s.tokens.take n)).2 res =
      ((List.range' n tokens.length).filter fun k => ¬ Dropped txt spans s k).foldl
        (keepPlace s) res := by
  induction tokens generalizing n res with
  | nil => rfl
  | cons t tokens ih =>
    have hrest : s.tokens.drop (n + 1) = tokens := by
      rw [← List.drop_drop, hdrop]
      rfl
    rw [excludeThink_cons txt s res spans hdrop, ih (n + 1) _ hrest, List.length_cons,
      List.range'_succ, List.filter_cons]
    by_cases hdropped : Dropped txt spans s n
    · rw [if_pos hdropped, if_neg (by simpa using hdropped)]
    · rw [if_neg hdropped, if_pos (by simpa using hdropped), List.foldl_cons]

theorem excludeThink_eq (txt : TokenText) (s : ServerTokens) (spans : List (Nat × Nat)) :
    excludeThink txt s spans s.tokens 0 0 0 { hasMtmd := s.hasMtmd } =
      s.pick (keptPlaces txt spans s) := by
  rw [pick, keptPlaces, List.range_eq_range']
  exact excludeThink_eq_foldl txt s spans s.tokens 0 _ rfl

/-! ### Where a chunk is cut -/

/-- The loop comes to a chunk of `n` places with the text length `len` and the span `q`. Its null
tokens bring the loop to a span that the text length lies in, and there are places left. -/
def CutAt (spans : List (Nat × Nat)) (len q n : Nat) : Prop :=
  ∃ r, q < r ∧ r < q + n ∧ r < spans.length ∧ (∀ r', q ≤ r' → r' < r → Passed spans r' len) ∧
    InSpan spans r len

/-- The chunk `p` is cut. -/
def Cut (txt : TokenText) (spans : List (Nat × Nat)) (s : ServerTokens) (p : Nat × InputChunk) :
    Prop :=
  CutAt spans (thinkAt txt spans (s.tokens.take p.1)).1
    (thinkAt txt spans (s.tokens.take p.1)).2 p.2.nTokens

/-- The spans of the loop at the places of a chunk. -/
theorem thinkAt_run {txt : TokenText} (hs : s.WellFormed) (hp : p ∈ s.mapIdxToMedia.entries)
    {x : Nat} (hx : x ≤ p.2.nTokens) :
    thinkAt txt spans (s.tokens.take (p.1 + x)) =
      ((thinkAt txt spans (s.tokens.take p.1)).1,
        (nextSpan spans (thinkAt txt spans (s.tokens.take p.1)).1)^[x]
          (thinkAt txt spans (s.tokens.take p.1)).2) := by
  induction x with
  | zero => rfl
  | succ x ih =>
    have hnull : s.tokens[p.1 + x]? = some llamaTokenNull :=
      (hs.nulls _).mpr ⟨p, hp, by omega, by omega⟩
    show thinkAt txt spans (s.tokens.take (p.1 + x + 1)) = _
    rw [thinkAt_succ txt spans hnull, ih (Nat.le_of_succ_le hx), Function.iterate_succ_apply']
    rfl

theorem dropped_run_iff {txt : TokenText} (hs : s.WellFormed) (hp : p ∈ s.mapIdxToMedia.entries)
    {x : Nat} (hx : x < p.2.nTokens) :
    Dropped txt spans s (p.1 + x) ↔
      InSpan spans ((nextSpan spans (thinkAt txt spans (s.tokens.take p.1)).1)^[x]
        (thinkAt txt spans (s.tokens.take p.1)).2) (thinkAt txt spans (s.tokens.take p.1)).1 := by
  have hnull : s.tokens[p.1 + x]? = some llamaTokenNull :=
    (hs.nulls _).mpr ⟨p, hp, by omega, by omega⟩
  have hgetD : s.tokens.getD (p.1 + x) 0 = llamaTokenNull := by
    rw [List.getD_eq_getElem?_getD, hnull]
    rfl
  rw [Dropped, thinkAt_run hs hp (Nat.le_of_lt hx), hgetD]
  rfl

/-- As long as the text length is behind each span, one null token passes one span. -/
theorem iterate_nextSpan {len q d : Nat} (hlt : q + d < spans.length)
    (hpass : ∀ r', q ≤ r' → r' < q + d → Passed spans r' len) :
    (nextSpan spans len)^[d] q = q + d := by
  induction d with
  | zero => rfl
  | succ d ih =>
    rw [Function.iterate_succ_apply', ih (by omega) fun r' hle hr' => hpass r' hle (by omega),
      nextSpan, if_pos ⟨hpass (q + d) (by omega) (by omega), by omega⟩]
    rfl

/-- A span that the null tokens bring the loop to has only passed spans in front of it. -/
theorem exists_of_iterate {len q x : Nat} (hout : ¬ InSpan spans q len)
    (hin : InSpan spans ((nextSpan spans len)^[x] q) len) :
    ∃ r, q < r ∧ r ≤ q + x ∧ r < spans.length ∧ (∀ r', q ≤ r' → r' < r → Passed spans r' len) ∧
      InSpan spans r len := by
  induction x generalizing q with
  | zero => exact absurd hin hout
  | succ x ih =>
    rw [Function.iterate_succ_apply] at hin
    by_cases hnext : Passed spans q len ∧ q + 1 < spans.length
    · rw [nextSpan, if_pos hnext] at hin
      by_cases hhere : InSpan spans (q + 1) len
      · refine ⟨q + 1, Nat.lt_succ_self q, by omega, hnext.2, fun r' hle hlt => ?_, hhere⟩
        rw [show r' = q by omega]
        exact hnext.1
      · obtain ⟨r, hqr, hle, hlt, hpass, hr⟩ := ih hhere hin
        refine ⟨r, by omega, by omega, hlt, fun r' hle' hlt' => ?_, hr⟩
        rcases Nat.eq_or_lt_of_le hle' with heq | hbehind
        · exact heq ▸ hnext.1
        · exact hpass r' hbehind hlt'
    · rw [nextSpan, if_neg hnext] at hin
      obtain ⟨r, hqr, hle, hlt, hpass, hr⟩ := ih hout hin
      exact ⟨r, hqr, by omega, hlt, hpass, hr⟩

/-- What the loop makes of a well-formed list is well formed exactly when no chunk is cut. -/
theorem excludeThink_wellFormed_iff (txt : TokenText) (hs : s.WellFormed)
    (spans : List (Nat × Nat)) :
    (excludeThink txt s spans s.tokens 0 0 0 { hasMtmd := s.hasMtmd }).WellFormed ↔
      ∀ p ∈ s.mapIdxToMedia.entries, ¬ Cut txt spans s p := by
  have hmem : ∀ k, k ∈ keptPlaces txt spans s ↔ k < s.size ∧ ¬ Dropped txt spans s k := by
    intro k
    rw [keptPlaces, List.mem_filter, List.mem_range, decide_eq_true_iff]
  have hbehind : ∀ i, i ∉ keptPlaces txt spans s → s.tokens[i + 1]? = some llamaTokenNull →
      i + 1 ∉ keptPlaces txt spans s := by
    intro i hi hnull hkept
    obtain ⟨hlt, -⟩ := List.getElem?_eq_some_iff.mp hnull
    have hdropped : Dropped txt spans s i := by
      by_contra hno
      exact hi ((hmem i).mpr ⟨Nat.lt_of_succ_lt hlt, hno⟩)
    apply ((hmem (i + 1)).mp hkept).2
    have hget : s.tokens[i]? = some (s.tokens.getD i 0) := by
      rw [List.getD_eq_getElem?_getD, List.getElem?_eq_getElem (Nat.lt_of_succ_lt hlt)]
      rfl
    have hgetD : s.tokens.getD (i + 1) 0 = llamaTokenNull := by
      rw [List.getD_eq_getElem?_getD, hnull]
      rfl
    -- The loop stays where it was, since a null token adds no text.
    rw [Dropped, thinkAt_succ txt spans hget, hgetD, nextSpan_of_inSpan hdropped]
    exact hdropped
  have hordered : (keptPlaces txt spans s).Pairwise (· < ·) := List.pairwise_lt_range.filter _
  rw [excludeThink_eq, pick_wellFormed_iff hs hordered (fun k hk => ((hmem k).mp hk).1) hbehind]
  apply forall₂_congr
  intro p hp
  have hin := hs.inside p hp
  constructor
  · intro hwhole hcut
    obtain ⟨r, hqr, hrn, hlt, hpass, hr⟩ := hcut
    have hfirst : p.1 ∈ keptPlaces txt spans s := by
      refine (hmem p.1).mpr ⟨by omega, fun hdropped => ?_⟩
      have hspan := (dropped_run_iff hs hp (x := 0) (by omega)).mp hdropped
      have hpassed := hpass _ (Nat.le_refl _) hqr
      exact absurd hpassed.2 (Nat.not_lt.mpr hspan.2)
    have hkept := hwhole hfirst _ (show r - (thinkAt txt spans (s.tokens.take p.1)).2 < _ by omega)
    apply ((hmem _).mp hkept).2
    rw [dropped_run_iff hs hp (by omega), iterate_nextSpan (by omega)
      fun r' hle hlt' => hpass r' hle (by omega), Nat.add_sub_cancel' (Nat.le_of_lt hqr)]
    exact hr
  · intro hno hfirst x hx
    refine (hmem _).mpr ⟨by omega, fun hdropped => hno ?_⟩
    have hspan := (dropped_run_iff hs hp hx).mp hdropped
    have hout : ¬ InSpan spans (thinkAt txt spans (s.tokens.take p.1)).2
        (thinkAt txt spans (s.tokens.take p.1)).1 := by
      intro hhere
      apply ((hmem p.1).mp hfirst).2
      exact (dropped_run_iff hs hp (x := 0) (by omega)).mpr hhere
    obtain ⟨r, hqr, hle, hlt, hpass, hr⟩ := exists_of_iterate hout hspan
    exact ⟨r, hqr, by omega, hlt, hpass, hr⟩

end ServerTokens

end PxqLlama.Server
