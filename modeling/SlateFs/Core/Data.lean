import SlateFs.Core.FsM

/-!
# Chunked content

File contents are fixed-size chunks at `c/<ino>/<idx>`; an absent chunk reads as
zeroes (`data.rs`). Writes and truncates are planned here and committed by the
caller in one batch.

Offsets and sizes are 64-bit. Where the source can overflow, the wrapped value
is written out.
-/

namespace SlateFs

open FsM

/-- `a + b` on `u64`. -/
def addU64 (a b : Nat) : Nat := (a + b) % 2 ^ 64

/-- `a - b` on `u64`. -/
def subU64 (a b : Nat) : Nat := (a + 2 ^ 64 - b) % 2 ^ 64

/-- The chunk an offset falls in, cut to 32 bits. Dividing by a zero chunk size panics. -/
def chunkOf (offset chunkSize : Nat) : FsM Nat :=
  if chunkSize = 0 then panicked else pure (offset / chunkSize % 2 ^ 32)

/-- Replace the bytes of `buf` from `pos` on by `src`. -/
def splice (buf : Bytes) (pos : Nat) (src : Bytes) : Bytes :=
  buf.take pos ++ src ++ buf.drop (pos + src.length)

/-- Copy the overlap of one chunk with the read window into the output buffer. -/
def copyFromChunk (out : Bytes) (readOffset idx : Nat) (chunk : Bytes) (chunkSize : Nat) : Bytes :=
  let chunkStart := idx * chunkSize
  let lo := max readOffset chunkStart
  let hi := min (addU64 readOffset out.length) (chunkStart + chunk.length)
  if lo ≥ hi then out
  else splice out (lo - readOffset) ((chunk.drop (lo - chunkStart)).take (hi - lo))

variable (chunkSize : Nat)

/-- Copy one chunk, if it is there. -/
def copyChunk (offset idx : Nat) (out : Bytes) : Option Bytes → Bytes
  | some chunk => copyFromChunk out offset idx chunk chunkSize
  | none => out

/-- Fill the output from a frozen view of the store, one chunk after another. -/
def copyChunks (db : Db) (chunkSize : Nat) (ino : Ino) (offset : Nat) : List Nat → Bytes → Bytes
  | [], out => out
  | idx :: rest, out =>
    copyChunks db chunkSize ino offset rest
      (copyChunk chunkSize offset idx out (db.get (.chunk ino idx)))

/-- The indices `first..=last`. -/
def chunkRange (first last : Nat) : List Nat := List.range' first (last + 1 - first)

/--
Read `[offset, offset+len)` clamped to `size`. One chunk is a point read; more
than one goes through a snapshot.
-/
def readRange (ino : Ino) (size offset len : Nat) : FsM Bytes :=
  if offset ≥ size ∨ len = 0 then pure []
  else do
    let stop := min size (addU64 offset len)
    let first ← chunkOf offset chunkSize
    let last ← chunkOf (subU64 stop 1) chunkSize
    let out := List.replicate (subU64 stop offset) 0
    if first = last then
      let chunk ← dbGet (.chunk ino first)
      pure (copyChunk chunkSize offset first out chunk)
    else
      let snap ← snapshot
      pure (copyChunks snap chunkSize ino offset (chunkRange first last) out)

/-! ## Writes -/

structure WritePlan where
  /-- Full chunk values to put. -/
  puts : List (Nat × Bytes)
  newSize : Nat
  /-- Change in billed bytes. -/
  billedDelta : Int64

/-- `buf.resize(n, 0)` when the buffer is shorter. -/
def growTo (buf : Bytes) (n : Nat) : Bytes :=
  if buf.length < n then buf ++ List.replicate (n - buf.length) 0 else buf

/-- The new value of one chunk under a write of `data` at `offset`. -/
def writtenChunk (offset : Nat) (data : Bytes) (idx : Nat) (oldChunk : Option Bytes) :
    Bytes :=
  let chunkStart := idx * chunkSize
  let writeFrom := max offset chunkStart
  let writeTo := min (offset + data.length) (chunkStart + chunkSize)
  let buf := growTo (oldChunk.getD []) (writeTo - chunkStart)
  splice buf (writeFrom - chunkStart)
    ((data.drop (writeFrom - offset)).take (writeTo - writeFrom))

/-- What a chunk was billed before the write. -/
def oldBilled (oldSize chunkStart : Nat) : Option Bytes → Nat
  | some c => billedChunkBytes oldSize chunkStart c.length
  | none => 0

def planWriteChunks (chunkSize : Nat) (ino : Ino) (oldSize newSize offset : Nat) (data : Bytes) :
    List Nat → FsM (List (Nat × Bytes) × Int64)
  | [] => pure ([], 0)
  | idx :: rest => do
      let chunkStart := idx * chunkSize
      -- chunks at or above the old size are not billed, and are not read
      let oldChunk ← if chunkStart ≥ oldSize then pure none else dbGet (.chunk ino idx)
      let buf := writtenChunk chunkSize offset data idx oldChunk
      let delta := Int64.ofNat (billedChunkBytes newSize chunkStart buf.length)
        - Int64.ofNat (oldBilled oldSize chunkStart oldChunk)
      let (puts, deltas) ← planWriteChunks chunkSize ino oldSize newSize offset data rest
      pure ((idx, buf) :: puts, delta + deltas)

/-- Plan writing `data` at `offset`. -/
def planWrite (ino : Ino) (oldSize offset : Nat) (data : Bytes) :
    FsM WritePlan := do
  let stop := offset + data.length
  let newSize := max oldSize stop
  let first ← chunkOf offset chunkSize
  let last ← chunkOf (stop - 1) chunkSize
  let (puts, delta) ←
    planWriteChunks chunkSize ino oldSize newSize offset data (chunkRange first last)
  pure ⟨puts, newSize, delta⟩

/-! ## Truncates -/

structure TruncatePlan where
  /-- Trimmed tail chunk to rewrite, if the new size splits a chunk. -/
  tailPut : Option (Nat × Bytes)
  /-- Chunk indexes to delete, ascending. -/
  deletes : List Nat
  billedDelta : Int64

/-- One scanned chunk's share of a truncate. -/
def truncateChunk (oldSize newSize : Nat) (plan : TruncatePlan) (kv : Nat × Bytes) :
    TruncatePlan :=
  let chunkStart := kv.1 * chunkSize
  let old := Int64.ofNat (billedChunkBytes oldSize chunkStart kv.2.length)
  if chunkStart ≥ newSize then
    { plan with deletes := plan.deletes ++ [kv.1], billedDelta := plan.billedDelta + (0 - old) }
  else
    let keep := newSize - chunkStart
    if keep < kv.2.length then
      { plan with
        tailPut := some (kv.1, kv.2.take keep)
        billedDelta := plan.billedDelta + (Int64.ofNat keep - old) }
    else
      { plan with billedDelta := plan.billedDelta + (Int64.ofNat kv.2.length - old) }

/-- Plan a truncate to `newSize`. Growing is metadata only. -/
def planTruncate (ino : Ino) (oldSize newSize : Nat) : FsM TruncatePlan :=
  if newSize ≥ oldSize then pure ⟨none, [], 0⟩
  else do
    let firstAffected ← chunkOf newSize chunkSize
    let kvs ← scanChunks ino firstAffected
    pure (kvs.foldl (truncateChunk chunkSize oldSize newSize) ⟨none, [], 0⟩)

end SlateFs
