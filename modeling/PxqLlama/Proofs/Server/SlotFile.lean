import Mathlib.Data.List.GetD
import PxqLlama.Server.SlotFile

/-!
# `Proofs.Server.SlotFile`: a slot saved and restored

* `fromJson_jsonFields`: the token list, its media map included, comes back from its JSON file.
* `roundTrips_iff`: a restore that succeeds gives back what was saved exactly when nothing was
  saved as a checkpoint, and neither an older file nor the restoring slot has one to offer.
-/

namespace PxqLlama.Server

open Wire

/-! ### Token lists -/

theorem mapM_map_some {α β : Type} (f : α → β) (g : β → Option α) (l : List α)
    (h : ∀ x ∈ l, g (f x) = some x) : (l.map f).mapM g = some l := by
  induction l with
  | nil => rfl
  | cons x l ih =>
    have hl := ih fun y hy => h y (List.mem_cons_of_mem _ hy)
    simp [h x List.mem_cons_self, hl]

theorem asInts_nums (l : List Int) : (Json.arr (l.map .int) : TokenJson).asInts = some l :=
  mapM_map_some (Json.int : Int → TokenJson) Json.asInt l fun _ _ => rfl

theorem ImageTokens.fromJson_toJson (t : ImageTokens) : fromJson t.toJson = some t := rfl

theorem AudioTokens.fromJson_toJson (t : AudioTokens) : fromJson t.toJson = some t := rfl

theorem ChunkType.ofInt_toInt (t : ChunkType) : ofInt t.toInt = some t := by
  cases t <;> rfl

/-- A chunk comes back from its JSON, whatever it holds. -/
theorem InputChunk.fromJson_toJson (chunk : InputChunk) : fromJson chunk.toJson = some chunk := by
  obtain ⟨type, text, image, audio⟩ := chunk
  have htype := ChunkType.ofInt_toInt type
  have htext := asInts_nums text
  cases image <;> cases audio <;>
    simp [InputChunk.fromJson, InputChunk.toJson, Json.value, Json.find, Json.asInt, List.lookup_cons,
      htype, htext, ImageTokens.fromJson_toJson, AudioTokens.fromJson_toJson]

namespace ServerTokens

theorem mediaFromJson_toJson (p : Nat × InputChunk) : mediaFromJson (mediaToJson p) = some p := by
  have hchunk := InputChunk.fromJson_toJson p.2
  simp [mediaFromJson, mediaToJson, Json.at?, Json.find, Json.asNat, List.lookup_cons, hchunk]

/-- The token list that is read from the fields of a token list is that list, whatever was in its
place. -/
theorem fromJson_jsonFields (s old : ServerTokens) (more : List (String × TokenJson)) :
    fromJson (.obj (s.jsonFields ++ more)) old = some s := by
  have hmedia : (s.mapIdxToMedia.entries.map mediaToJson).mapM mediaFromJson
      = some s.mapIdxToMedia.entries :=
    mapM_map_some mediaToJson mediaFromJson _ fun p _ => mediaFromJson_toJson p
  have htokens := asInts_nums s.tokens
  simp [fromJson, jsonFields, Json.value, Json.find, Json.asBool, List.lookup_cons, hmedia, htokens,
    OrderedMap.insertAll_entries]

end ServerTokens

theorem loadServerTokens_save (s old : ServerTokens) :
    loadServerTokens (some (saveServerTokens s)) old = some s := by
  have hfields := s.fromJson_jsonFields old
    [("magic", .int llamaServerMagic), ("version", .int llamaServerVersion)]
  have hmagic : (saveServerTokens s).value Json.asInt "magic" 0 = some llamaServerMagic := by
    simp [saveServerTokens, ServerTokens.jsonFields, Json.value, Json.asInt, List.lookup_cons]
  have hversion : (saveServerTokens s).value Json.asInt "version" 0 = some llamaServerVersion := by
    simp [saveServerTokens, ServerTokens.jsonFields, Json.value, Json.asInt, List.lookup_cons]
  simp only [loadServerTokens, hmagic, hversion, Option.bind_eq_bind, Option.bind_some]
  simpa [saveServerTokens] using hfields

/-! ### What a file offers -/

theorem Uninit.length_read (mem : Uninit) (file : Bytes) (pos n : Nat) :
    (mem.read file pos n).length = n := by
  simp [Uninit.read]

theorem Uninit.read_add (mem : Uninit) (file : Bytes) (pos n m : Nat) :
    mem.read file pos n ++ mem.read file (pos + n) m = mem.read file pos (n + m) := by
  simp [Uninit.read, List.range_add, Function.comp_def, Nat.add_assoc]

/-- What the file has of a field is the start of what is read. -/
theorem Uninit.take_isPrefix_read (mem : Uninit) (file : Bytes) (pos n : Nat) :
    (file.drop pos).take n <+: mem.read file pos n := by
  rw [List.prefix_iff_getElem?]
  intro k hk
  have hk' : k < n ∧ pos + k < file.length := by
    simp only [List.length_take, List.length_drop] at hk
    omega
  rw [List.getElem?_eq_getElem (by rw [mem.length_read]; exact hk'.1)]
  simp only [Uninit.read, List.getElem_map, List.getElem_range, List.getElem_take,
    List.getElem_drop, List.getD_eq_getElem _ _ hk'.2]

/-- Whatever the memory holds, no checkpoint is read: the file does not start like one of this
version, or it gives their number as zero. -/
def OffersNone (bytes : Bytes) : Prop :=
  ¬ bytes.take 8 <+: checkpointHeader ∨
    16 ≤ bytes.length ∧ (bytes.drop 8).take 8 = List.replicate 8 0

instance (bytes : Bytes) : Decidable (OffersNone bytes) :=
  inferInstanceAs (Decidable (_ ∨ _))

/-- What is loaded from a file that is there. -/
theorem loadCheckpoints_file (mem : Uninit) (bytes : Bytes) (old : List PromptCheckpoint) :
    loadCheckpoints mem (some bytes) old
      = if mem.read bytes 0 8 ≠ checkpointHeader then []
        else loadRecords mem bytes (decode (mem.read bytes 8 8)) 0 16 := by
  rw [← mem.read_add bytes 0 4 4]
  rfl

variable {bytes : Bytes}

theorem loadCheckpoints_of_offersNone (mem : Uninit) (h : OffersNone bytes)
    (old : List PromptCheckpoint) : loadCheckpoints mem (some bytes) old = [] := by
  rw [loadCheckpoints_file]
  rcases h with hheader | ⟨hlen, hzero⟩
  · rw [if_pos]
    intro heq
    exact hheader (heq ▸ mem.take_isPrefix_read bytes 0 8)
  · have hcount : mem.read bytes 8 8 = List.replicate 8 0 := by
      have hpre := mem.take_isPrefix_read bytes 8 8
      rw [← hzero]
      exact (hpre.eq_of_length (by rw [mem.length_read]; simp; omega)).symm
    rw [hcount]
    split <;> rfl

/-- Memory that completes a header, and that is not zero behind it. -/
def Uninit.completing : Uninit where
  byte k := checkpointHeader.getD k 1
  nTokens _ := 0

/-- The loader that completes leaves a checkpoint, unless the file offers none. -/
theorem loadCheckpoints_completing (h : ¬ OffersNone bytes) (old : List PromptCheckpoint) :
    loadCheckpoints .completing (some bytes) old ≠ [] := by
  obtain ⟨hheader, hcount⟩ := not_or.mp h
  have hheader : bytes.take 8 <+: checkpointHeader := not_not.mp hheader
  rw [loadCheckpoints_file, if_neg]
  · intro hnil
    cases hdec : decode (Uninit.completing.read bytes 8 8) with
    | succ n => rw [hdec] at hnil; cases hnil
    | zero =>
      have hzero := (decode_eq_zero_iff _).mp hdec
      have hlen : 16 ≤ bytes.length := by
        -- the last byte of the count is not the one of the memory
        by_contra hlt
        have hmem : Uninit.completing.byte 15 ∈ Uninit.completing.read bytes 8 8 := by
          refine List.mem_map.mpr ⟨7, by decide, ?_⟩
          exact List.getD_eq_default _ _ (by omega)
        have hone := hzero _ hmem
        revert hone
        decide
      refine hcount ⟨hlen, ?_⟩
      have hpre := Uninit.completing.take_isPrefix_read bytes 8 8
      rw [hpre.eq_of_length (by rw [Uninit.length_read]; simp; omega)]
      exact List.eq_replicate_iff.mpr ⟨Uninit.length_read _ _ _ _, hzero⟩
  · rw [not_not]
    have hlength : checkpointHeader.length = 8 := rfl
    apply List.ext_getElem (by rw [Uninit.length_read, hlength])
    intro k hk hk'
    rw [Uninit.length_read] at hk
    simp only [Uninit.read, List.getElem_map, List.getElem_range, Nat.zero_add]
    cases Nat.lt_or_ge k bytes.length with
    | inl hlt =>
      have hat := hheader.getElem (i := k) (by simp; omega)
      rw [List.getElem_take] at hat
      rw [List.getD_eq_getElem _ _ hlt, hat]
    | inr hge =>
      rw [List.getD_eq_default _ _ hge]
      exact List.getD_eq_getElem _ _ hk'

/-! ### Save and restore -/

variable {σ : Type}

/-- A restore that succeeds gives back the token list and the checkpoints that were saved,
whatever the memory held. -/
def RoundTrips (nCtx : Nat) (fits : σ → Bool) (saved other : SlotState σ) (files : SlotFiles σ) :
    Prop :=
  ∀ mem after, slotRestore nCtx fits mem (slotSave saved files) other = some (true, after) →
    after.cacheTokens = saved.cacheTokens ∧ after.checkpoints = saved.checkpoints

/-- What a restore gives, where the cache has room: the saved tokens, and the checkpoints that the
file or the slot has. -/
theorem slotRestore_save {nCtx : Nat} {fits : σ → Bool} {saved : SlotState σ}
    (hctx : saved.cacheTokens.size ≤ nCtx) (hfits : fits saved.seq = true)
    (other : SlotState σ) (files : SlotFiles σ) (mem : Uninit) :
    slotRestore nCtx fits mem (slotSave saved files) other
      = some (true, {
          cacheTokens := saved.cacheTokens
          checkpoints := loadCheckpoints mem ((saveCheckpoints saved.checkpoints).or
            files.checkpoints) other.checkpoints
          seq := saved.seq }) := by
  have hroom : ¬ (nCtx < saved.cacheTokens.tokens.length ∨ ¬ fits saved.seq = true) := by
    simp only [hfits, not_true_eq_false, or_false, Nat.not_lt]
    exact hctx
  simp only [slotRestore, slotSave, if_neg hroom, loadServerTokens_save, Option.bind_eq_bind,
    Option.bind_some]

/-- Checkpoints that come from a file have the `n_tokens` of the memory. -/
theorem nTokens_of_loadCheckpoints {mem : Uninit} {old l : List PromptCheckpoint}
    {c : PromptCheckpoint} (h : loadCheckpoints mem (some bytes) old = c :: l) :
    c.nTokens = mem.nTokens 0 := by
  rw [loadCheckpoints_file] at h
  split at h
  · cases h
  · cases hcount : decode (mem.read bytes 8 8) with
    | zero => rw [hcount] at h; cases h
    | succ n => rw [hcount] at h; cases h; rfl

/-- Saving and restoring a slot is a round trip exactly when the saved slot has no checkpoint, and
the checkpoint file of an earlier save, or without one the restoring slot, has none either. -/
theorem roundTrips_iff (nCtx : Nat) (fits : σ → Bool) (saved other : SlotState σ)
    (files : SlotFiles σ) (hctx : saved.cacheTokens.size ≤ nCtx)
    (hfits : fits saved.seq = true) :
    RoundTrips nCtx fits saved other files ↔
      saved.checkpoints = [] ∧
        (files.checkpoints = none ∧ other.checkpoints = [] ∨
          ∃ bytes, files.checkpoints = some bytes ∧ OffersNone bytes) := by
  have hrun := slotRestore_save hctx hfits other files
  constructor
  · intro h
    have hback : ∀ mem, loadCheckpoints mem ((saveCheckpoints saved.checkpoints).or
        files.checkpoints) other.checkpoints = saved.checkpoints :=
      fun mem => (h mem _ (hrun mem)).2
    cases hsaved : saved.checkpoints with
    | cons c l =>
      -- the number of tokens is the one of the memory, which can be any other
      have hat := hback ⟨fun _ => 0, fun _ => c.nTokens + 1⟩
      rw [hsaved] at hat
      have htokens := nTokens_of_loadCheckpoints
        (show loadCheckpoints _ (some _) other.checkpoints = c :: l from hat)
      have : c.nTokens = c.nTokens + 1 := htokens
      omega
    | nil =>
      rw [hsaved] at hback
      refine ⟨rfl, ?_⟩
      cases hfile : files.checkpoints with
      | none =>
        rw [hfile] at hback
        exact .inl ⟨rfl, hback .completing⟩
      | some bytes =>
        rw [hfile] at hback
        refine .inr ⟨bytes, rfl, ?_⟩
        by_contra hnot
        exact loadCheckpoints_completing hnot _ (hback .completing)
  · rintro ⟨hsaved, hnone⟩ mem after hafter
    rw [hrun mem, hsaved] at hafter
    cases hafter
    refine ⟨rfl, ?_⟩
    rw [hsaved]
    rcases hnone with ⟨hfile, hother⟩ | ⟨bytes, hfile, hoffers⟩
    · rw [hfile]
      exact hother
    · rw [hfile]
      exact loadCheckpoints_of_offersNone mem hoffers other.checkpoints

/-! ### Runs -/

/-- A slot with an image between two text tokens, and no checkpoint. -/
def slotWithImage : SlotState Unit where
  cacheTokens := {
    hasMtmd := true
    tokens := [1, -1, -1, 2]
    mapIdxToMedia := OrderedMap.empty.insert 1
      { type := .image, tokensImage := some { nx := 2, ny := 1, id := "a" } } }
  checkpoints := []
  seq := ()

/-- An image prompt without checkpoints comes back into a slot that has none. -/
theorem roundTrips_image :
    RoundTrips 8 (fun _ => true) slotWithImage { slotWithImage with cacheTokens := {} }
      { state := none, tokensJson := none, checkpoints := none } :=
  (roundTrips_iff 8 (fun _ => true) slotWithImage { slotWithImage with cacheTokens := {} }
    { state := none, tokensJson := none, checkpoints := none } (by decide) rfl).mpr
    ⟨rfl, .inl ⟨rfl, rfl⟩⟩

/-- A slot saved without checkpoints comes back with the checkpoint that the restoring slot had
before. -/
theorem restore_keeps_old_checkpoint :
    let old : PromptCheckpoint := ⟨0, 3, 0, 3, 4, [7]⟩
    ¬ RoundTrips 8 (fun _ => true) slotWithImage { slotWithImage with checkpoints := [old] }
      { state := none, tokensJson := none, checkpoints := none } := by
  intro old h
  have hback := h .completing _ (slotRestore_save (by decide) rfl _ _ .completing)
  cases hback.2

end PxqLlama.Server
