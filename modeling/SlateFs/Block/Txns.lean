import SlateFs.Block.Stored

/-!
# What a call on a block volume does

A call commits writes and zeroing batches, and nothing else (`BlockTxn`). Both keep
the device well stored and its counter equal to the stored bytes. For each operation
there is one rule saying what it leaves on the device, byte by byte; the rule for
trim also says that the loop returns before its fuel is used up.
-/

namespace SlateFs

open FsM

/-- What memory may answer on a volume with these limits: a reservation is refused
only when it raises a counter that has a limit. -/
def Oracle.limited (limits : QuotaLimits) : Oracle where
  number _ _ := True
  isOpen _ _ _ := True
  reserve b i r := r = .ok () ∨ (r = .error .quotaExceeded
    ∧ (0 < b ∧ limits.bytes ≠ {} ∨ 0 < i ∧ limits.inodes ≠ {}))
  cached _ _ _ := True

namespace BlockVolume

variable {g : BlockVolume} {db db' : Db} {off len stop idx : Nat} {data : Bytes}

/-! ## Writes -/

/-- A stored device is a well stored file. -/
lemma Stored.rep (h : g.Stored db) : FileRep g.chunkSize db BLOCK_INO g.sizeBytes where
  nonempty := h.nonempty
  short := h.short
  idx32 idx c hc := by
    have hlt : idx * g.chunkSize < 2 ^ 32 * g.chunkSize := by
      have := h.nonempty idx c hc
      have := h.inside idx c hc
      have := g.size_le
      omega
    exact Nat.lt_of_mul_lt_mul_right hlt
  inside idx c hc _ := h.inside idx c hc

lemma Stored.clear (h : g.Stored db) (n : Nat) (R : List Nat) :
    Clear g.chunkSize db BLOCK_INO g.sizeBytes n R := by
  intro idx c hc hge _
  have := h.nonempty idx c hc
  have := h.inside idx c hc
  omega

/-- What is stored is what a file of the device's size would be billed. -/
lemma Stored.storedBytes_eq (h : g.Stored db) :
    storedBytes db = billedOf g.chunkSize db BLOCK_INO g.sizeBytes := by
  refine OrdMap.sum_congr ?_
  intro k c hk
  obtain ⟨⟨x, idx⟩, rfl⟩ := toLex.surjective k
  have hx := h.own x idx c hk
  subst hx
  have hin := h.inside idx c hk
  simp [billOf, billedChunkBytes_full hin]

section

variable (h : g.Stored db) (hdata : data ≠ []) (hfit : off + data.length ≤ g.sizeBytes)
  (hw : Wrote g.chunkSize db BLOCK_INO g.sizeBytes off data db')
include h hdata hfit hw

lemma Stored.wrote : g.Stored db' := by
  have hmax : off + data.length ≤ g.chunkSize * 2 ^ 32 := le_trans hfit g.size_le
  have hrep := h.rep.write g.chunkSize_ne hdata hmax (h.clear _ _) hw
  rw [max_eq_left hfit] at hrep
  refine ⟨?_, hrep.nonempty, hrep.short, ?_⟩
  · intro x j c hc
    rw [hw] at hc
    split at hc
    · rename_i hx; exact hx.1
    · exact h.own x j c hc
  · intro j c hc
    refine hrep.inside j c hc ?_
    rw [hw] at hc
    split at hc
    · rename_i hx
      have := (mem_writtenRange g.chunkSize_ne hdata hmax).mp hx.2
      omega
    · have := h.nonempty j c hc
      have := h.inside j c hc
      omega

lemma Stored.wrote_byteAt {p : Nat} (hp : p < g.sizeBytes) :
    byteAt g.chunkSize db' BLOCK_INO p =
      if off ≤ p ∧ p < off + data.length then data.getD (p - off) 0
      else byteAt g.chunkSize db BLOCK_INO p := by
  rw [byteAt_write h.rep g.chunkSize_ne hdata (le_trans hfit g.size_le) (h.clear _ _) hw
    (lt_of_lt_of_le hp (le_max_left _ _)), if_pos hp]

end

/-! ## Transactions -/

/-- A batch that zeroes. -/
def ZeroTxn (g : BlockVolume) (db db' : Db) : Prop :=
  ∃ off stop idxs, idxs.Nodup ∧ g.Zeroed db off stop idxs db'

/-- What a batch of a block volume can do. -/
inductive BlockTxn (g : BlockVolume) (db : Db) : Db → Prop where
  | write {off : Nat} {data : Bytes} {db' : Db} (hdata : data ≠ [])
      (hfit : off + data.length ≤ g.sizeBytes)
      (hw : Wrote g.chunkSize db BLOCK_INO g.sizeBytes off data db')
      (hq : db'.quotaBytes = db.quotaBytes
        + (writePlanOf g.chunkSize db BLOCK_INO g.sizeBytes off data).billedDelta) :
      BlockTxn g db db'
  | zero {db' : Db} (hz : g.ZeroTxn db db') : BlockTxn g db db'

/-- A device well stored, with a counter that shows what is stored. -/
structure Booked (g : BlockVolume) (db : Db) : Prop where
  stored : g.Stored db
  /-- The counter is a 64-bit number. -/
  counter : db.quotaBytes = Int64.ofNat (storedBytes db)

/-- **Every batch keeps the books.** -/
theorem Booked.txn (h : g.Booked db) (ht : g.BlockTxn db db') : g.Booked db' := by
  cases ht with
  | @write off data _ hdata hfit hw hq =>
    have hs' := h.stored.wrote hdata hfit hw
    obtain ⟨d, hd, hsum⟩ := billed_write h.stored.rep (h.stored.clear _ _) hw
    rw [max_eq_left hfit, ← h.stored.storedBytes_eq, ← hs'.storedBytes_eq] at hsum
    refine ⟨hs', ?_⟩
    rw [hq, h.counter, hd, ← Int64.ofInt_eq_ofNat, ← Int64.ofInt_add, hsum, Int64.ofInt_eq_ofNat]
  | zero hz =>
    obtain ⟨off, stop, idxs, hn, hz⟩ := hz
    refine ⟨hz.stored h.stored, ?_⟩
    rw [hz.quota, h.counter, ← Int64.ofInt_eq_ofNat, ← Int64.ofInt_add, ← hz.storedBytes hn,
      Int64.ofInt_eq_ofNat]

lemma ZeroTxn.storedBytes_le (h : g.ZeroTxn db db') : storedBytes db' ≤ storedBytes db := by
  obtain ⟨off, stop, idxs, hn, hz⟩ := h
  have hsum := g.sum_zeroDelta_nonpos db off stop idxs
  have := hz.storedBytes hn
  omega

/-! ## Building blocks -/

lemma extentEnd_eq (g : BlockVolume) (off len : Nat) :
    g.extentEnd off len = if off + len ≤ g.sizeBytes then .ok (off + len) else .error .invalid := by
  have := g.size_lt
  unfold extentEnd
  by_cases hfit : off + len ≤ g.sizeBytes
  · rw [if_neg (by omega), if_neg (by omega), if_pos hfit]
  split
  · rfl
  · rw [if_pos (by omega)]

section Rules

variable {M : Oracle} {T : Db → Db → Prop} {z : Prop} {E : Abort → Db → Prop}

lemma wp_extentEnd {Q : Nat → Db → Prop} :
    wp (M.watch T z) Q E (ofExcept (g.extentEnd off len)) db ↔
      (off + len ≤ g.sizeBytes → Q (off + len) db)
      ∧ (g.sizeBytes < off + len → E (.err .invalid) db) := by
  rw [wp_ofExcept, extentEnd_eq]
  by_cases hfit : off + len ≤ g.sizeBytes
  · simp [hfit]
  · simp [hfit, Nat.lt_of_not_le hfit]

lemma div_lt (g : BlockVolume) {p : Nat} (hp : p < g.sizeBytes) : p / g.chunkSize < 2 ^ 32 :=
  Nat.div_lt_of_lt_mul (lt_of_lt_of_le hp g.size_le)

lemma wp_chunkRange {Q : Option (Nat × Nat) → Db → Prop} :
    wp (M.watch T z) Q E (g.chunkRange off len) db ↔
      (off + len ≤ g.sizeBytes → len = 0 → Q none db)
      ∧ (off + len ≤ g.sizeBytes → len ≠ 0 →
        Q (some (off / g.chunkSize, (off + len - 1) / g.chunkSize)) db)
      ∧ (g.sizeBytes < off + len → E (.err .invalid) db) := by
  simp only [chunkRange, wp_bind, wp_extentEnd, wp_ite, wp_pure, wp_chunkOf, g.chunkSize_ne,
    false_implies, true_and, ne_eq, not_false_eq_true, true_implies]
  constructor
  · rintro ⟨hfit, hbad⟩
    refine ⟨fun h => (hfit h).1, fun h hl => ?_, hbad⟩
    have := (hfit h).2 hl
    rwa [Nat.mod_eq_of_lt (g.div_lt (by omega)), Nat.mod_eq_of_lt (g.div_lt (by omega))] at this
  · rintro ⟨hnone, hsome, hbad⟩
    refine ⟨fun h => ⟨hnone h, fun hl => ?_⟩, hbad⟩
    rw [Nat.mod_eq_of_lt (g.div_lt (by omega)), Nat.mod_eq_of_lt (g.div_lt (by omega))]
    exact hsome h hl

variable {Q : Unit → Db → Prop}

@[simp] lemma wp_flushIf (fua : Bool) : wp (M.watch T z) Q E (flushIf fua) db ↔ Q () db := by
  cases fua <;> simp [flushIf]

lemma wp_blockCommit (b : Batch) (delta : Int64) (fua : Bool) :
    wp (M.watch T z) Q E (BlockVolume.commit b delta fua) db ↔
      (M.reserve delta 0 (.ok ()) → (db.apply b = db ∨ T db (db.apply b)) ∧ Q () (db.apply b))
      ∧ ∀ e, M.reserve delta 0 (.error e) → E (.err e) db := by
  simp only [BlockVolume.commit, wp_bind, wp_reserve, wp_tryCommit, wp_flushIf]

lemma wp_stageAll (idxs : List Nat) {Q : List (Write × Int64) → Db → Prop} :
    wp (M.watch T z) Q E (g.stageAll off stop idxs) db ↔ Q (g.stagedOf db off stop idxs) db := by
  induction idxs generalizing Q with
  | nil => rfl
  | cons idx idxs ih =>
    simp only [stageAll, stageZeroesForExistingChunk, wp_bind, wp_dbGet, stagedOf_cons, Db.get]
    cases db.chunks.get? (toLex (BLOCK_INO, idx)) with
    | none => simp only [wp_pure, ih]; rfl
    | some c => simp only [wp_pure, ih]; rfl

end Rules

end BlockVolume

end SlateFs
