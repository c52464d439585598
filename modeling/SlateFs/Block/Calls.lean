import SlateFs.Block.Txns

/-!
# The rules of the block operations

What each operation answers and what it leaves on the device. A write and a zeroing
call commit one batch, so they happen at once. Trim commits a batch for every 1024
chunks it covers; in between, the device is part of the way there.
-/

namespace SlateFs

open FsM

namespace BlockVolume

variable {g : BlockVolume} {M : Oracle} {z : Prop} {E : Abort → Db → Prop} {db : Db}
  {off len : Nat} {data : Bytes}

/-! ## Reading -/

variable {T : Db → Db → Prop} {Q : Bytes → Db → Prop}

lemma wp_read (h : g.Stored db) :
    wp (M.watch T z) Q E (g.read off len) db ↔
      (off + len ≤ g.sizeBytes → Q (sliceOf g.chunkSize db BLOCK_INO g.sizeBytes off len) db)
      ∧ (g.sizeBytes < off + len → E (.err .invalid) db) := by
  simp only [BlockVolume.read, wp_bind, wp_extentEnd, wp_readRange, g.chunkSize_ne, false_implies,
    true_and, ne_eq, not_false_eq_true, true_implies]
  refine and_congr_left fun _ => imp_congr_right fun hfit => ?_
  by_cases hempty : off ≥ g.sizeBytes ∨ len = 0
  · simp only [hempty, true_implies, not_true_eq_false, false_implies, and_true,
      sliceOf_empty hempty]
  · rw [← rangeOf_eq g.chunkSize_ne h.short (by omega) (by omega) g.size_le
      (lt_of_le_of_lt hfit g.size_lt)]
    simp only [hempty, false_implies, true_and, not_false_eq_true, true_implies]

lemma wp_copyEach (idxs : List Nat) (out : Bytes) :
    wp (M.watch T z) Q E (g.copyEach off idxs out) db ↔
      Q (copyChunks db g.chunkSize BLOCK_INO off idxs out) db := by
  induction idxs generalizing out with
  | nil => rfl
  | cons idx idxs ih => simp only [copyEach, wp_bind, wp_dbGet, ih]; rfl

/-- A snapshot is read chunk by chunk, and yields what the device held. -/
lemma wp_snapshotRead (h : g.Stored db) :
    wp (M.watch T z) Q E (g.snapshotRead off len) db ↔
      (off + len ≤ g.sizeBytes → Q (sliceOf g.chunkSize db BLOCK_INO g.sizeBytes off len) db)
      ∧ (g.sizeBytes < off + len → E (.err .invalid) db) := by
  simp only [snapshotRead, wp_bind, wp_extentEnd, wp_ite, wp_pure, wp_chunkOf, g.chunkSize_ne,
    false_implies, true_and, ne_eq, not_false_eq_true, true_implies, wp_copyEach]
  refine and_congr_left fun _ => imp_congr_right fun hfit => ?_
  by_cases hlen : len = 0
  · simp only [hlen, true_implies, not_true_eq_false, false_implies, and_true,
      sliceOf_empty (.inr rfl : off ≥ g.sizeBytes ∨ 0 = 0)]
  -- one chunk or more, the loop over the chunks fills the range
  simp only [hlen, false_implies, true_and, not_false_eq_true, true_implies]
  rw [Nat.mod_eq_of_lt (g.div_lt (by omega)), Nat.mod_eq_of_lt (g.div_lt (by omega))]
  have hrep : (List.replicate (off + len - off) (0 : UInt8)).length = len := by
    rw [List.length_replicate]; omega
  have h64 : off + (List.replicate (off + len - off) (0 : UInt8)).length < 2 ^ 64 := by
    rw [hrep]; exact lt_of_le_of_lt hfit g.size_lt
  have hget := fun q hq => copyChunks_getD h.short g.chunkSize_ne
    (SlateFs.chunkRange (off / g.chunkSize) ((off + len - 1) / g.chunkSize))
    (nodup_chunkRange _ _) _ h64 q hq (fun _ => getD_zeroes ..)
  have hl := (hget 0 (by rw [hrep]; omega)).1
  have hslice : copyChunks db g.chunkSize BLOCK_INO off (SlateFs.chunkRange (off / g.chunkSize)
      ((off + len - 1) / g.chunkSize)) (List.replicate (off + len - off) 0) =
      sliceOf g.chunkSize db BLOCK_INO g.sizeBytes off len := by
    refine eq_sliceOf (by rw [hl, hrep, min_eq_right hfit]; omega) ?_
    intro q hq
    rw [hl] at hq
    rw [(hget q hq).2, if_pos]
    exact mem_chunkRange.mpr ⟨Nat.div_le_div_right (by omega), Nat.div_le_div_right (by omega)⟩
  rw [hslice]

/-! ## Writing -/

/-- A write is refused, does nothing, or is committed whole. -/
lemma wp_write (fua : Bool) {Q : Unit → Db → Prop}
    (hbad : g.sizeBytes < off + data.length → E (.err .invalid) db)
    (hnone : off + data.length ≤ g.sizeBytes → data = [] → Q () db)
    (hrefused : ∀ d e, M.reserve d 0 (.error e) → E (.err e) db)
    (hdone : ∀ db', off + data.length ≤ g.sizeBytes → data ≠ [] →
      Wrote g.chunkSize db BLOCK_INO g.sizeBytes off data db' → Q () db') :
    wp (M.watch g.BlockTxn z) Q E (g.write off data fua) db := by
  simp only [BlockVolume.write, wp_bind, wp_chunkRange, List.length_eq_zero_iff, ne_eq]
  refine ⟨fun hfit he => by simpa using hnone hfit he, fun hfit hne => ?_, hbad⟩
  simp only [wp_withGuards, wp_bind]
  refine wp_planWrite (fun h => absurd h g.chunkSize_ne) (fun _ => ?_)
  simp only [wp_blockCommit]
  refine ⟨fun _ => ?_, hrefused _⟩
  have happ : db.apply ((writePlanOf g.chunkSize db BLOCK_INO g.sizeBytes off data).puts.map
        (fun p => .put (.chunk BLOCK_INO p.1) p.2)
      ++ mergeDelta (writePlanOf g.chunkSize db BLOCK_INO g.sizeBytes off data).billedDelta) =
      { db with
        chunks := db.chunks.insertAll ((writePlanOf g.chunkSize db BLOCK_INO g.sizeBytes off
          data).puts.map (fun p => (toLex (BLOCK_INO, p.1), p.2)))
        quotaBytes := db.quotaBytes
          + (writePlanOf g.chunkSize db BLOCK_INO g.sizeBytes off data).billedDelta } := by
    rw [Db.apply_append, apply_putChunks, mergeDelta, apply_mergeBytes]
  have hw : Wrote g.chunkSize db BLOCK_INO g.sizeBytes off data (db.apply _) :=
    .of_puts (by rw [happ])
  exact ⟨.inr (.write hne hfit hw (by rw [happ])), hdone _ hfit hne hw⟩

/-- The batch of a zeroing call is refused or committed whole. -/
lemma wp_writeZeroes (h : g.Stored db) (fua : Bool) {Q : Unit → Db → Prop}
    (hbad : g.sizeBytes < off + len → E (.err .invalid) db)
    (hnone : off + len ≤ g.sizeBytes → len = 0 → Q () db)
    (hrefused : ∀ e, M.reserve (Int64.ofInt (((SlateFs.chunkRange (off / g.chunkSize)
      ((off + len - 1) / g.chunkSize)).map (g.zeroDelta db off (off + len))).sum)) 0 (.error e) →
      E (.err e) db)
    (hdone : ∀ db', off + len ≤ g.sizeBytes → len ≠ 0 →
      g.Zeroed db off (off + len) (SlateFs.chunkRange (off / g.chunkSize)
        ((off + len - 1) / g.chunkSize)) db' → Q () db') :
    wp (M.watch g.ZeroTxn z) Q E (g.writeZeroes off len fua) db := by
  simp only [BlockVolume.writeZeroes, wp_bind, wp_chunkRange]
  refine ⟨fun hfit he => by simpa using hnone hfit he, fun hfit hne => ?_, hbad⟩
  have hn := nodup_chunkRange (off / g.chunkSize) ((off + len - 1) / g.chunkSize)
  have hz := h.zeroed off (off + len) hn
  simp only [wp_withGuards, wp_bind, wp_stageAll, wp_ite, wp_flushIf, wp_blockCommit]
  refine ⟨fun hnil => ?_, fun _ => ⟨fun _ => ⟨.inr ⟨_, _, _, hn, hz⟩, hdone _ hfit hne hz⟩, ?_⟩⟩
  · -- nothing to zero: what is staged is empty, and so is its batch
    rw [hnil] at hz
    exact hdone db hfit hne hz
  · rw [(h.staged off (off + len) hn).1]
    exact hrefused

end BlockVolume

end SlateFs
