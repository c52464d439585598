import SlateFs.Block.Device
import SlateFs.Data.Billing

/-!
# What is stored on a block volume

The device is stored as chunks that hold something, stop at the chunk size and stop
at the end of the device; absent bytes read as zero. Two kinds of batches change it:
a write puts chunks, and zeroing deletes or shortens chunks that exist. Both keep
the form of what is stored and move the byte counter by the change in stored bytes.
-/

namespace SlateFs

open OrdMap

/-- The bytes stored in chunks. -/
def storedBytes (db : Db) : Nat := db.chunks.sum (fun _ c => c.length)

/-- Store a chunk of the device, or take it away. -/
def Db.setChunk (db : Db) (idx : Nat) : Option Bytes → Db
  | some c => db.put (.chunk BLOCK_INO idx) c
  | none => db.delete (.chunk BLOCK_INO idx)

lemma Db.get?_setChunk (db : Db) (idx : Nat) (o : Option Bytes) (k : Ino ×ₗ Nat) :
    (db.setChunk idx o).chunks.get? k =
      if k = toLex (BLOCK_INO, idx) then o else db.chunks.get? k := by
  cases o with
  | some c => exact get?_insert ..
  | none => exact get?_erase ..

/-- How long a chunk is; an absent one holds nothing. -/
def lengthOf (o : Option Bytes) : Nat := (o.getD []).length

/-! ## Zeroing one chunk -/

lemma trimTrailingZeroes_getD (b : Bytes) (q : Nat) :
    (trimTrailingZeroes b).getD q 0 = b.getD q 0 := by
  have hsplit : trimTrailingZeroes b ++ b.rtakeWhile (· = 0) = b :=
    List.rdropWhile_append_rtakeWhile ..
  conv_rhs => rw [← hsplit, getD_append]
  split
  · rfl
  rename_i hge
  rw [getD_of_length_le (by omega)]
  by_cases hq : q - (trimTrailingZeroes b).length < (b.rtakeWhile (· = 0)).length
  · rw [List.getD_eq_getElem _ _ hq]
    have := List.mem_rtakeWhile_imp (List.getElem_mem hq)
    simpa using (of_decide_eq_true this).symm
  · rw [getD_of_length_le (by omega)]

lemma trimTrailingZeroes_length (b : Bytes) : (trimTrailingZeroes b).length ≤ b.length :=
  (List.rdropWhile_prefix (fun x => decide (x = 0)) b).length_le

namespace BlockVolume

variable {g : BlockVolume} {db db' : Db} {off stop idx : Nat}

lemma chunkSize_ne (g : BlockVolume) : g.chunkSize ≠ 0 := by
  intro h
  have hv := g.valid
  unfold validateBlockSize at hv
  split at hv
  · cases hv
  · split at hv <;> cases hv

lemma size_le (g : BlockVolume) : g.sizeBytes ≤ g.chunkSize * 2 ^ 32 := by
  by_contra h
  have hv := g.valid
  unfold validateBlockSize at hv
  rw [if_pos (Nat.lt_of_not_le h)] at hv
  repeat' split at hv
  all_goals cases hv

/-- What is left of a stored chunk once `[off, stop)` is zeroed. -/
def zeroOf (g : BlockVolume) (off stop idx : Nat) (c : Bytes) : Option Bytes :=
  let (chunkStart, chunkEnd) := g.chunkBounds idx
  if off ≤ chunkStart ∧ chunkEnd ≤ stop then none
  else
    let lo := max off chunkStart - chunkStart
    let hi := min (min stop chunkEnd - chunkStart) c.length
    if lo ≥ hi then some c
    else
      let buf := trimTrailingZeroes (fillZeroes c lo hi)
      if buf = [] then none else some buf

variable {c : Bytes} {idxs : List Nat}

lemma fillZeroes_getD {lo hi : Nat} (hlo : lo < hi) (hhi : hi ≤ c.length) (q : Nat) :
    (fillZeroes c lo hi).getD q 0 = if lo ≤ q ∧ q < hi then 0 else c.getD q 0 := by
  unfold fillZeroes
  rw [splice_getD _ (by omega), List.length_replicate, getD_zeroes]
  by_cases h : lo ≤ q ∧ q < hi
  · rw [if_pos h, if_pos (by omega)]
  · rw [if_neg h, if_neg (by omega)]

lemma fillZeroes_length {lo hi : Nat} (hlo : lo < hi) (hhi : hi ≤ c.length) :
    (fillZeroes c lo hi).length = c.length := by
  unfold fillZeroes
  rw [splice_length]
  rw [List.length_replicate]
  omega

lemma getD_nonempty (b : Bytes) : (if b = [] then none else some b : Option Bytes).getD [] = b := by
  split
  · rename_i h; rw [h]; rfl
  · rfl

/-- The chunk is covered and goes, has nothing in the range and stays, or is rewritten. -/
lemma zeroOf_cases (g : BlockVolume) (off stop idx : Nat) (c : Bytes) :
    let chunkStart := idx * g.chunkSize
    let chunkEnd := min (chunkStart + g.chunkSize) g.sizeBytes
    let lo := max off chunkStart - chunkStart
    let hi := min (min stop chunkEnd - chunkStart) c.length
    (off ≤ chunkStart ∧ chunkEnd ≤ stop ∧ g.zeroOf off stop idx c = none)
    ∨ (¬(off ≤ chunkStart ∧ chunkEnd ≤ stop) ∧ hi ≤ lo ∧ g.zeroOf off stop idx c = some c)
    ∨ (¬(off ≤ chunkStart ∧ chunkEnd ≤ stop) ∧ lo < hi ∧ g.zeroOf off stop idx c =
      if trimTrailingZeroes (fillZeroes c lo hi) = [] then none
      else some (trimTrailingZeroes (fillZeroes c lo hi))) := by
  intro chunkStart chunkEnd lo hi
  by_cases hcov : off ≤ chunkStart ∧ chunkEnd ≤ stop
  · exact .inl ⟨hcov.1, hcov.2, if_pos hcov⟩
  have hz : g.zeroOf off stop idx c = if lo ≥ hi then some c
      else if trimTrailingZeroes (fillZeroes c lo hi) = [] then none
      else some (trimTrailingZeroes (fillZeroes c lo hi)) := if_neg hcov
  by_cases hge : lo ≥ hi
  · exact .inr (.inl ⟨hcov, hge, hz.trans (if_pos hge)⟩)
  · exact .inr (.inr ⟨hcov, Nat.lt_of_not_le hge, hz.trans (if_neg hge)⟩)

/-- **Zeroing clears the range and nothing else.** -/
theorem zeroOf_getD (hshort : c.length ≤ g.chunkSize)
    (hin : idx * g.chunkSize + c.length ≤ g.sizeBytes) (q : Nat) :
    ((g.zeroOf off stop idx c).getD []).getD q 0 =
      if off ≤ idx * g.chunkSize + q ∧ idx * g.chunkSize + q < stop then 0 else c.getD q 0 := by
  rcases g.zeroOf_cases off stop idx c with ⟨hlo, hhi, hz⟩ | ⟨hcov, hge, hz⟩ | ⟨hcov, hlt, hz⟩
  · -- a covered chunk is gone, and had nothing beyond the range
    rw [hz, Option.getD_none, getD_of_length_le (Nat.zero_le q)]
    split
    · rfl
    · rw [getD_of_length_le (by omega)]
  · rw [hz, Option.getD_some]
    split
    · rw [getD_of_length_le (by omega)]
    · rfl
  · rw [hz, getD_nonempty, trimTrailingZeroes_getD, fillZeroes_getD hlt (by omega)]
    by_cases hq : q < c.length
    · by_cases hr : off ≤ idx * g.chunkSize + q ∧ idx * g.chunkSize + q < stop
      · rw [if_pos hr, if_pos (by omega)]
      · rw [if_neg hr, if_neg (by omega)]
    · rw [getD_of_length_le (by omega), ite_self, ite_self]

lemma zeroOf_length (g : BlockVolume) (off stop idx : Nat) (c : Bytes) :
    lengthOf (g.zeroOf off stop idx c) ≤ c.length := by
  unfold lengthOf
  rcases g.zeroOf_cases off stop idx c with ⟨_, _, hz⟩ | ⟨_, _, hz⟩ | ⟨_, hlt, hz⟩
  · rw [hz]; exact Nat.zero_le _
  · rw [hz]; exact le_refl _
  · rw [hz, getD_nonempty]
    exact le_trans (trimTrailingZeroes_length _) (le_of_eq (fillZeroes_length hlt (by omega)))

lemma zeroOf_nonempty {b : Bytes} (hc : 0 < c.length) (h : g.zeroOf off stop idx c = some b) :
    0 < b.length := by
  rcases g.zeroOf_cases off stop idx c with ⟨_, _, hz⟩ | ⟨_, _, hz⟩ | ⟨_, _, hz⟩
  · rw [hz] at h; cases h
  · rw [hz] at h; rw [← Option.some.inj h]; exact hc
  rw [hz] at h
  split at h
  · cases h
  rename_i hne
  rw [← Option.some.inj h]
  exact List.length_pos_of_ne_nil hne

/-- What is staged for a chunk stores what is left of it and bills the difference. -/
lemma zeroedChunk_spec (off stop : Nat) (hin : idx * g.chunkSize + c.length ≤ g.sizeBytes) :
    (g.zeroedChunk idx off stop c = none ∧ g.zeroOf off stop idx c = some c)
    ∨ ∃ w d, g.zeroedChunk idx off stop c = some (w, d)
      ∧ (∀ db : Db, db.applyWrite w = db.setChunk idx (g.zeroOf off stop idx c))
      ∧ d = Int64.ofInt (lengthOf (g.zeroOf off stop idx c) - c.length) := by
  have hold : billedChunkBytes g.sizeBytes (idx * g.chunkSize) c.length = c.length :=
    billedChunkBytes_full hin
  rcases g.zeroOf_cases off stop idx c with ⟨hlo, hhi, hz⟩ | ⟨hcov, hge, hz⟩ | ⟨hcov, hlt, hz⟩
  · refine .inr ⟨_, _, if_pos ⟨hlo, hhi⟩, fun _ => by rw [hz]; rfl, ?_⟩
    rw [hold, hz]
    simp [lengthOf, Int64.ofInt_neg, Int64.ofInt_eq_ofNat]
  · exact .inl ⟨(if_neg hcov).trans (if_pos hge), hz⟩
  · refine .inr ⟨_, _, (if_neg hcov).trans (if_neg (Nat.not_le_of_lt hlt)), fun db => ?_, ?_⟩
    · rw [hz]
      split <;> rfl
    have hlen := trimTrailingZeroes_length (fillZeroes c (max off (idx * g.chunkSize)
      - idx * g.chunkSize) (min (min stop (min (idx * g.chunkSize + g.chunkSize) g.sizeBytes)
        - idx * g.chunkSize) c.length))
    rw [fillZeroes_length hlt (by omega)] at hlen
    rw [hz, lengthOf, getD_nonempty, Int64.ofInt_sub, Int64.ofInt_eq_ofNat, Int64.ofInt_eq_ofNat]
    rw [hold, billedChunkBytes_full]
    exact le_trans (Nat.add_le_add_left hlen _) hin

/-! ## Batches that zero -/

/-- How the bytes of a device may be stored. -/
structure Stored (g : BlockVolume) (db : Db) : Prop where
  /-- Every chunk is the device's. -/
  own : ∀ x idx c, db.chunks.get? (toLex (x, idx)) = some c → x = BLOCK_INO
  /-- A chunk holds something. -/
  nonempty : ∀ idx c, db.chunks.get? (toLex (BLOCK_INO, idx)) = some c → 0 < c.length
  /-- A chunk holds no more than a chunk's worth. -/
  short : Short g.chunkSize db BLOCK_INO
  /-- A chunk ends inside the device. -/
  inside : ∀ idx c, db.chunks.get? (toLex (BLOCK_INO, idx)) = some c →
    idx * g.chunkSize + c.length ≤ g.sizeBytes

/-- A chunk of the device after `[off, stop)` is zeroed. -/
def zeroedOf (g : BlockVolume) (db : Db) (off stop idx : Nat) : Option Bytes :=
  (db.chunks.get? (toLex (BLOCK_INO, idx))).bind (g.zeroOf off stop idx)

/-- What zeroing `[off, stop)` takes away from a chunk. -/
def zeroDelta (g : BlockVolume) (db : Db) (off stop idx : Nat) : ℤ :=
  lengthOf (g.zeroedOf db off stop idx) - lengthOf (db.chunks.get? (toLex (BLOCK_INO, idx)))

/-- What is staged for the given chunks. -/
def stagedOf (g : BlockVolume) (db : Db) (off stop : Nat) (idxs : List Nat) :
    List (Write × Int64) :=
  idxs.flatMap (fun idx => ((db.chunks.get? (toLex (BLOCK_INO, idx))).bind
    (g.zeroedChunk idx off stop)).toList)

/-- The given chunks are zeroed on `[off, stop)` and the counter moves with them. -/
structure Zeroed (g : BlockVolume) (db : Db) (off stop : Nat) (idxs : List Nat) (db' : Db) :
    Prop where
  chunks : ∀ x idx, db'.chunks.get? (toLex (x, idx)) =
    if x = BLOCK_INO ∧ idx ∈ idxs then g.zeroedOf db off stop idx
    else db.chunks.get? (toLex (x, idx))
  quota : db'.quotaBytes =
    db.quotaBytes + Int64.ofInt ((idxs.map (g.zeroDelta db off stop)).sum)

lemma stagedOf_cons (g : BlockVolume) (db : Db) (off stop idx : Nat) (idxs : List Nat) :
    g.stagedOf db off stop (idx :: idxs) =
      ((db.chunks.get? (toLex (BLOCK_INO, idx))).bind (g.zeroedChunk idx off stop)).toList
      ++ g.stagedOf db off stop idxs := List.flatMap_cons

lemma Stored.staged_one (h : g.Stored db) (off stop idx : Nat) :
    let staged := ((db.chunks.get? (toLex (BLOCK_INO, idx))).bind
      (g.zeroedChunk idx off stop)).toList
    stagedDelta staged = Int64.ofInt (g.zeroDelta db off stop idx)
    ∧ ∀ db₁ : Db, db₁.chunks.get? (toLex (BLOCK_INO, idx)) =
        db.chunks.get? (toLex (BLOCK_INO, idx)) →
      (db₁.apply (stagedBatch staged)).quotaBytes = db₁.quotaBytes
      ∧ ∀ x j, (db₁.apply (stagedBatch staged)).chunks.get? (toLex (x, j)) =
        if x = BLOCK_INO ∧ j = idx then g.zeroedOf db off stop idx
        else db₁.chunks.get? (toLex (x, j)) := by
  have hsame : ∀ {db₁ : Db} {o : Option Bytes},
      db₁.chunks.get? (toLex (BLOCK_INO, idx)) = o → ∀ x j,
      db₁.chunks.get? (toLex (x, j)) =
        if x = BLOCK_INO ∧ j = idx then o else db₁.chunks.get? (toLex (x, j)) := by
    intro db₁ o ho x j
    split
    · rename_i hxj
      rw [hxj.1, hxj.2, ho]
    · rfl
  unfold zeroDelta zeroedOf
  cases hc : db.chunks.get? (toLex (BLOCK_INO, idx)) with
  | none =>
    refine ⟨rfl, fun db₁ h₁ => ⟨rfl, ?_⟩⟩
    exact hsame h₁
  | some c =>
    rcases zeroedChunk_spec off stop (h.inside idx c hc) with
      ⟨hz, hzo⟩ | ⟨w, d, hz, happ, hd⟩
    · simp only [Option.bind_some, hz, hzo]
      refine ⟨by simp [stagedDelta, lengthOf], fun db₁ h₁ => ⟨rfl, hsame h₁⟩⟩
    simp only [Option.bind_some, hz]
    refine ⟨?_, fun db₁ h₁ => ?_⟩
    · rw [← show lengthOf (some c) = c.length from rfl] at hd
      rw [← hd]
      exact Int64.add_zero d
    · have hb : db₁.apply (stagedBatch (some (w, d)).toList) =
          db₁.setChunk idx (g.zeroOf off stop idx c) := happ db₁
      rw [hb]
      refine ⟨by cases g.zeroOf off stop idx c <;> rfl, fun x j => ?_⟩
      rw [Db.get?_setChunk]
      refine if_congr ?_ rfl rfl
      exact ⟨fun he => Prod.mk.inj (toLex.injective he), fun he => by rw [he.1, he.2]⟩

/-- The batch staged for the given chunks zeroes them. -/
lemma Stored.staged (h : g.Stored db) (off stop : Nat) (hn : idxs.Nodup) :
    stagedDelta (g.stagedOf db off stop idxs) =
      Int64.ofInt ((idxs.map (g.zeroDelta db off stop)).sum)
    ∧ ∀ db₁ : Db, (∀ idx ∈ idxs, db₁.chunks.get? (toLex (BLOCK_INO, idx)) =
        db.chunks.get? (toLex (BLOCK_INO, idx))) →
      (db₁.apply (stagedBatch (g.stagedOf db off stop idxs))).quotaBytes = db₁.quotaBytes
      ∧ ∀ x j, (db₁.apply (stagedBatch (g.stagedOf db off stop idxs))).chunks.get? (toLex (x, j)) =
        if x = BLOCK_INO ∧ j ∈ idxs then g.zeroedOf db off stop j
        else db₁.chunks.get? (toLex (x, j)) := by
  induction idxs with
  | nil => exact ⟨rfl, fun db₁ _ => ⟨rfl, fun x j => by simp [stagedOf, stagedBatch]⟩⟩
  | cons idx idxs ih =>
    obtain ⟨hnot, hn'⟩ := List.nodup_cons.mp hn
    obtain ⟨hd₁, ha₁⟩ := h.staged_one off stop idx
    obtain ⟨hd₂, ha₂⟩ := ih hn'
    rw [stagedOf_cons]
    refine ⟨?_, fun db₁ h₁ => ?_⟩
    · rw [stagedDelta, List.map_append, List.sum_append, ← stagedDelta, ← stagedDelta, hd₁, hd₂,
        List.map_cons, List.sum_cons, Int64.ofInt_add]
    rw [stagedBatch, List.map_append, ← stagedBatch, ← stagedBatch, Db.apply_append]
    obtain ⟨hq₁, hc₁⟩ := ha₁ db₁ (h₁ idx List.mem_cons_self)
    have hother : ∀ j ∈ idxs, ¬(BLOCK_INO = BLOCK_INO ∧ j = idx) :=
      fun j hj he => hnot (he.2 ▸ hj)
    obtain ⟨hq₂, hc₂⟩ := ha₂ _ (fun j hj => (hc₁ BLOCK_INO j).trans
      ((if_neg (hother j hj)).trans (h₁ j (List.mem_cons_of_mem _ hj))))
    refine ⟨hq₂.trans hq₁, fun x j => ?_⟩
    rw [hc₂, hc₁]
    by_cases hx : x = BLOCK_INO
    · by_cases hj : j = idx
      · subst hj
        simp [hx, hnot]
      · simp [hx, hj]
    · simp [hx]

lemma Stored.zeroed (h : g.Stored db) (off stop : Nat) (hn : idxs.Nodup) :
    g.Zeroed db off stop idxs (db.apply (stagedBatch (g.stagedOf db off stop idxs)
      ++ mergeDelta (stagedDelta (g.stagedOf db off stop idxs)))) := by
  obtain ⟨hd, ha⟩ := h.staged off stop hn
  obtain ⟨hq, hc⟩ := ha db (fun _ _ => rfl)
  rw [Db.apply_append, mergeDelta, apply_mergeBytes]
  exact ⟨hc, by rw [← hd, ← hq]⟩

section Zeroed

variable {idxs : List Nat} (hz : g.Zeroed db off stop idxs db')
include hz

/-- A chunk left by zeroing is part of one that was there. -/
lemma Zeroed.of_some {c : Bytes} (hc : db'.chunks.get? (toLex (BLOCK_INO, idx)) = some c) :
    ∃ c₀, db.chunks.get? (toLex (BLOCK_INO, idx)) = some c₀ ∧ c.length ≤ c₀.length
      ∧ (0 < c₀.length → 0 < c.length) := by
  rw [hz.chunks] at hc
  split at hc
  · obtain ⟨c₀, hc₀, hzo⟩ := Option.bind_eq_some_iff.mp hc
    have hlen := g.zeroOf_length off stop idx c₀
    rw [hzo] at hlen
    exact ⟨c₀, hc₀, hlen, fun h => zeroOf_nonempty h hzo⟩
  · exact ⟨c, hc, le_refl _, id⟩

lemma Zeroed.stored (h : g.Stored db) : g.Stored db' where
  own x j c hc := by
    rw [hz.chunks] at hc
    split at hc
    · rename_i hx; exact hx.1
    · exact h.own x j c hc
  nonempty j c hc := by
    obtain ⟨c₀, hc₀, _, hpos⟩ := hz.of_some hc
    exact hpos (h.nonempty j c₀ hc₀)
  short j c hc := by
    obtain ⟨c₀, hc₀, hlen, _⟩ := hz.of_some hc
    exact le_trans hlen (h.short j c₀ hc₀)
  inside j c hc := by
    obtain ⟨c₀, hc₀, hlen, _⟩ := hz.of_some hc
    exact le_trans (Nat.add_le_add_left hlen _) (h.inside j c₀ hc₀)

/-- **The bytes of a zeroed chunk** are zero in the range and as before outside it. -/
theorem Zeroed.byteAt (h : g.Stored db) (p : Nat) :
    SlateFs.byteAt g.chunkSize db' BLOCK_INO p =
      if p / g.chunkSize ∈ idxs ∧ off ≤ p ∧ p < stop then 0
      else SlateFs.byteAt g.chunkSize db BLOCK_INO p := by
  have hsplit : p / g.chunkSize * g.chunkSize + p % g.chunkSize = p := by
    rw [mod_eq_sub]
    have := Nat.div_mul_le_self p g.chunkSize
    omega
  unfold SlateFs.byteAt
  rw [hz.chunks]
  by_cases hin : p / g.chunkSize ∈ idxs
  · rw [if_pos ⟨rfl, hin⟩, zeroedOf]
    cases hc : db.chunks.get? (toLex (BLOCK_INO, p / g.chunkSize)) with
    | none => simp
    | some c =>
      rw [Option.bind_some, zeroOf_getD (h.short _ c hc) (h.inside _ c hc), hsplit,
        Option.getD_some]
      simp only [hin, true_and]
  · rw [if_neg (fun hr => hin hr.2), if_neg (fun hr => hin hr.1)]

/-- The stored bytes change by the deltas. -/
lemma Zeroed.storedBytes (hn : idxs.Nodup) :
    (SlateFs.storedBytes db' : ℤ) = SlateFs.storedBytes db
      + (idxs.map (g.zeroDelta db off stop)).sum := by
  have hnodup : (idxs.map (fun idx => toLex (BLOCK_INO, idx))).Nodup :=
    hn.map (fun a b hab => (Prod.mk.inj (toLex.injective hab)).2)
  have hpart : ∀ (k : Ino ×ₗ Nat) (o : Option Bytes),
      OrdMap.part (fun _ c => ((c : Bytes).length : ℤ)) k o = lengthOf o := by
    intro k o
    cases o <;> rfl
  unfold SlateFs.storedBytes
  rw [sum_natCast, sum_natCast]
  refine (sum_update hnodup (m := db.chunks) (f := fun _ (c : Bytes) => (c.length : ℤ)) ?_).trans ?_
  · intro k hk
    obtain ⟨⟨x, j⟩, rfl⟩ := toLex.surjective k
    rw [hz.chunks, if_neg]
    rintro ⟨rfl, hj⟩
    exact hk (List.mem_map.mpr ⟨j, hj, rfl⟩)
  · rw [List.map_map]
    refine congrArg _ (congrArg List.sum (List.map_congr_left ?_))
    intro j hj
    rw [Function.comp_apply, hpart, hpart, hz.chunks, if_pos ⟨rfl, hj⟩, zeroDelta]

end Zeroed

lemma zeroDelta_nonpos (g : BlockVolume) (db : Db) (off stop idx : Nat) :
    g.zeroDelta db off stop idx ≤ 0 := by
  unfold zeroDelta zeroedOf
  cases db.chunks.get? (toLex (BLOCK_INO, idx)) with
  | none => exact le_refl _
  | some c =>
    have := g.zeroOf_length off stop idx c
    simp only [Option.bind_some, lengthOf, Option.getD_some] at this ⊢
    omega

lemma sum_zeroDelta_nonpos (g : BlockVolume) (db : Db) (off stop : Nat) (idxs : List Nat) :
    (idxs.map (g.zeroDelta db off stop)).sum ≤ 0 := by
  induction idxs with
  | nil => exact le_refl _
  | cons idx idxs ih =>
    have := g.zeroDelta_nonpos db off stop idx
    rw [List.map_cons, List.sum_cons]
    omega

end BlockVolume

end SlateFs
