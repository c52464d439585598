import SlateFs.Core.Batches

/-!
# What the planners compute

A write or truncate is planned by reading chunks one at a time. Run alone, the
plan is a function of the database, and these are the functions.
-/

namespace SlateFs

/-- The chunk a write reads before changing it: none at or above the old size. -/
def oldChunkOf (cs : Nat) (db : Db) (ino : Ino) (oldSize idx : Nat) : Option Bytes :=
  if idx * cs ≥ oldSize then none else db.chunks.get? (toLex (ino, idx))

/-- The value a write puts at a chunk. -/
def newChunkOf (cs : Nat) (db : Db) (ino : Ino) (oldSize offset : Nat) (data : Bytes) (idx : Nat) :
    Bytes :=
  writtenChunk cs offset data idx (oldChunkOf cs db ino oldSize idx)

/-- One chunk's share of a write's billed delta. -/
def chunkDelta (cs : Nat) (db : Db) (ino : Ino) (oldSize newSize offset : Nat) (data : Bytes)
    (idx : Nat) : Int64 :=
  Int64.ofNat (billedChunkBytes newSize (idx * cs)
      (newChunkOf cs db ino oldSize offset data idx).length)
    - Int64.ofNat (oldBilled oldSize (idx * cs) (oldChunkOf cs db ino oldSize idx))

/-- The chunks a write of `len` bytes at `offset` touches. -/
def writtenRange (cs offset len : Nat) : List Nat :=
  chunkRange (offset / cs % 2 ^ 32) ((offset + len - 1) / cs % 2 ^ 32)

def writePlanOf (cs : Nat) (db : Db) (ino : Ino) (oldSize offset : Nat) (data : Bytes) :
    WritePlan where
  puts := (writtenRange cs offset data.length).map
    (fun idx => (idx, newChunkOf cs db ino oldSize offset data idx))
  newSize := max oldSize (offset + data.length)
  billedDelta := ((writtenRange cs offset data.length).map
    (chunkDelta cs db ino oldSize (max oldSize (offset + data.length)) offset data)).sum

def truncatePlanOf (cs : Nat) (db : Db) (ino : Ino) (oldSize newSize : Nat) : TruncatePlan :=
  if newSize ≥ oldSize then ⟨none, [], 0⟩
  else (db.chunksFrom ino (newSize / cs % 2 ^ 32)).foldl (truncateChunk cs oldSize newSize)
    ⟨none, [], 0⟩

namespace FsM

variable {M : Oracle} {T : Db → Db → Prop} {z : Prop} {E : Abort → Db → Prop} {db : Db}

lemma wp_chunkOf {Q : Nat → Db → Prop} (offset cs : Nat) :
    wp (M.watch T z) Q E (chunkOf offset cs) db ↔
      (cs = 0 → E .panic db) ∧ (cs ≠ 0 → Q (offset / cs % 2 ^ 32) db) := by
  simp [chunkOf]

variable {cs oldSize : Nat} {ino : Ino}

lemma wp_planWriteChunks {newSize offset : Nat} {data : Bytes} (idxs : List Nat)
    {Q : List (Nat × Bytes) × Int64 → Db → Prop}
    (hQ : Q (idxs.map (fun idx => (idx, newChunkOf cs db ino oldSize offset data idx)),
      (idxs.map (chunkDelta cs db ino oldSize newSize offset data)).sum) db) :
    wp (M.watch T z) Q E (planWriteChunks cs ino oldSize newSize offset data idxs) db := by
  induction idxs generalizing Q with
  | nil => exact hQ
  | cons idx rest ih =>
    simp only [planWriteChunks, wp_bind, wp_ite, wp_pure, wp_dbGet]
    -- whether the old chunk is read or skipped, the rest runs on the same database
    have hrest : wp (M.watch T z) (fun r db' =>
          Q ((idx, newChunkOf cs db ino oldSize offset data idx) :: r.1,
            chunkDelta cs db ino oldSize newSize offset data idx + r.2) db') E
        (planWriteChunks cs ino oldSize newSize offset data rest) db := ih hQ
    refine ⟨?_, ?_⟩
    · intro hge
      have hold : oldChunkOf cs db ino oldSize idx = none := if_pos hge
      rw [newChunkOf, chunkDelta, newChunkOf, hold] at hrest
      exact hrest
    · intro hlt
      have hold : oldChunkOf cs db ino oldSize idx = db.get (.chunk ino idx) := if_neg hlt
      rw [newChunkOf, chunkDelta, newChunkOf, hold] at hrest
      exact hrest

lemma wp_planWrite {offset : Nat} {data : Bytes} {Q : WritePlan → Db → Prop}
    (hpanic : cs = 0 → E .panic db)
    (hQ : cs ≠ 0 → Q (writePlanOf cs db ino oldSize offset data) db) :
    wp (M.watch T z) Q E (planWrite cs ino oldSize offset data) db := by
  simp only [planWrite, wp_bind, wp_chunkOf, wp_pure]
  refine ⟨hpanic, fun hcs => ⟨hpanic, fun _ => ?_⟩⟩
  exact wp_planWriteChunks _ (hQ hcs)

lemma wp_planTruncate {newSize : Nat} {Q : TruncatePlan → Db → Prop}
    (hpanic : cs = 0 → E .panic db)
    (hQ : (newSize < oldSize → cs ≠ 0) → Q (truncatePlanOf cs db ino oldSize newSize) db) :
    wp (M.watch T z) Q E (planTruncate cs ino oldSize newSize) db := by
  simp only [planTruncate, wp_ite, wp_bind, wp_chunkOf, wp_pure, wp_scanChunks]
  refine ⟨?_, ?_⟩
  · intro hge
    have := hQ (fun hlt => absurd hge (by omega))
    simpa [truncatePlanOf, hge] using this
  · intro hlt
    refine ⟨hpanic, fun hcs => ?_⟩
    have := hQ (fun _ => hcs)
    rwa [truncatePlanOf, if_neg hlt] at this

end FsM

end SlateFs
