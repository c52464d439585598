import Mathlib.Data.List.DropRight
import SlateFs.Core.Mount
import SlateFs.Quota.Reserve

/-!
# Block volumes

A block volume is one sparse byte range kept in the chunks of inode 0 (`block.rs`).
It shares the chunk planner, the counters and the lock stripes with filesystem
volumes, so its operations are programs over the same calls. The stripes here
guard chunk indices, not inodes.

Left out of the geometry are the fields no operation reads: the minimum block and
payload a client is told about, and the read-only flag of the wrappers.
-/

namespace SlateFs

open FsM

def BLOCK_INO : Ino := 0

def BLOCK_SECTOR_SIZE : Nat := 4096

/-- `volume::validate_block_size`. -/
def validateBlockSize (sizeBytes chunkSize : Nat) : Except Invalid Unit :=
  if sizeBytes = 0 then .error ⟨"block size", "size_bytes must be greater than zero"⟩
  else if sizeBytes % BLOCK_SECTOR_SIZE ≠ 0 then
    .error ⟨"block size", s!"size_bytes must be a multiple of {BLOCK_SECTOR_SIZE}"⟩
  else if chunkSize = 0 then
    .error ⟨"block chunk size", "chunk_size must be greater than zero"⟩
  else
    let max := chunkSize * 2 ^ 32
    if max < sizeBytes then
      .error ⟨"block size", s!"size_bytes exceeds chunk_size * 2^32 ({max})"⟩
    else .ok ()

/-- A block volume that could be opened. -/
structure BlockVolume where
  sizeBytes : Nat
  chunkSize : Nat
  /-- The superblock keeps the size in 64 bits. -/
  size_lt : sizeBytes < 2 ^ 64
  /-- The superblock keeps the chunk size in 32 bits. -/
  chunk_lt : chunkSize < 2 ^ 32
  /-- Opening checks the geometry. -/
  valid : validateBlockSize sizeBytes chunkSize = .ok ()

/-- Two chunks of a page. -/
def BlockVolume.tiny : BlockVolume := ⟨8192, 4096, by decide, Volume.plain.chunkSize_lt, rfl⟩

/-- Exclusive locks for every key of an inclusive range; a long range locks all stripes. -/
def writeRange (first last : Nat) : List Lock :=
  if last < first then []
  else
    let stripes := if STRIPES ≤ last - first + 1 then List.range STRIPES
      else (chunkRange first last).map stripeOf
    ((stripes.insertionSort (· ≤ ·)).dedup).map .stripe

/-- Drop the zeroes a chunk ends with. -/
def trimTrailingZeroes (buf : Bytes) : Bytes := buf.rdropWhile (· = 0)

/-- `buf[from..to].fill(0)` -/
def fillZeroes (buf : Bytes) (lo hi : Nat) : Bytes := splice buf lo (List.replicate (hi - lo) 0)

namespace BlockVolume

variable (g : BlockVolume)

/-- Where a chunk begins and ends on the device. -/
def chunkBounds (idx : Nat) : Nat × Nat :=
  (idx * g.chunkSize, min (idx * g.chunkSize + g.chunkSize) g.sizeBytes)

def chunkFullyCovered (idx offset stop : Nat) : Bool :=
  offset ≤ (g.chunkBounds idx).1 && (g.chunkBounds idx).2 ≤ stop

/-- `offset.checked_add(len)`, inside the device. -/
def extentEnd (offset len : Nat) : Except FsError Nat :=
  if 2 ^ 64 ≤ offset + len then .error .invalid
  else if g.sizeBytes < offset ∨ g.sizeBytes < offset + len then .error .invalid
  else .ok (offset + len)

/-- The first and last chunk of an extent; none if it is empty. -/
def chunkRange (offset len : Nat) : FsM (Option (Nat × Nat)) := do
  let stop ← ofExcept (g.extentEnd offset len)
  if len = 0 then pure none
  else
    let first ← chunkOf offset g.chunkSize
    let last ← chunkOf (stop - 1) g.chunkSize
    pure (some (first, last))

/-- Wait until what is committed is durable, when the caller asked for it. -/
def flushIf (fua : Bool) : FsM Unit := if fua then flush else pure ()

/-- The merge of a billed delta; an unchanged counter is not touched. -/
def mergeDelta (delta : Int64) : Batch := if delta ≠ 0 then [.mergeBytes delta] else []

def commit (batch : Batch) (billedDelta : Int64) (fua : Bool) : FsM Unit := do
  reserve billedDelta 0
  match ← tryCommit batch with
  | .error _ =>
    releaseQuota billedDelta 0
    fail .io
  | .ok _ => flushIf fua

/-- What zeroing `[zeroFrom, zeroTo)` does to a stored chunk: a write and its billed delta. -/
def zeroedChunk (idx zeroFrom zeroTo : Nat) (existing : Bytes) : Option (Write × Int64) :=
  let (chunkStart, chunkEnd) := g.chunkBounds idx
  let oldBilled := billedChunkBytes g.sizeBytes chunkStart existing.length
  if zeroFrom ≤ chunkStart ∧ chunkEnd ≤ zeroTo then
    some (.delete (.chunk BLOCK_INO idx), -Int64.ofNat oldBilled)
  else
    let lo := max zeroFrom chunkStart - chunkStart
    let hi := min (min zeroTo chunkEnd - chunkStart) existing.length
    if lo ≥ hi then none
    else
      let buf := trimTrailingZeroes (fillZeroes existing lo hi)
      let newBilled := billedChunkBytes g.sizeBytes chunkStart buf.length
      some (if buf = [] then .delete (.chunk BLOCK_INO idx) else .put (.chunk BLOCK_INO idx) buf,
        Int64.ofNat newBilled - Int64.ofNat oldBilled)

/-- A chunk that is not stored reads as zeroes already. -/
def stageZeroesForExistingChunk (idx zeroFrom zeroTo : Nat) : FsM (Option (Write × Int64)) := do
  match ← dbGet (.chunk BLOCK_INO idx) with
  | none => pure none
  | some existing => pure (g.zeroedChunk idx zeroFrom zeroTo existing)

/-- Stage the given chunks one after another. -/
def stageAll (zeroFrom zeroTo : Nat) : List Nat → FsM (List (Write × Int64))
  | [] => pure []
  | idx :: rest => do
      let staged ← g.stageZeroesForExistingChunk idx zeroFrom zeroTo
      let more ← stageAll zeroFrom zeroTo rest
      pure (staged.toList ++ more)

/-- The writes of what is staged. -/
def stagedBatch (staged : List (Write × Int64)) : Batch := staged.map Prod.fst

/-- The change in billed bytes of what is staged. -/
def stagedDelta (staged : List (Write × Int64)) : Int64 := (staged.map Prod.snd).sum

def read (offset len : Nat) : FsM Bytes := do
  let _ ← ofExcept (g.extentEnd offset len)
  readRange g.chunkSize BLOCK_INO g.sizeBytes offset len

def write (offset : Nat) (data : Bytes) (fua : Bool) : FsM Unit := do
  match ← g.chunkRange offset data.length with
  | none => flushIf fua
  | some (first, last) =>
    withGuards (writeRange first last) do
      let plan ← planWrite g.chunkSize BLOCK_INO g.sizeBytes offset data
      commit (plan.puts.map (fun p => .put (.chunk BLOCK_INO p.1) p.2)
        ++ mergeDelta plan.billedDelta) plan.billedDelta fua

/-! ## Trim -/

def TRIM_BATCH : Nat := 1024

/-- The edge chunks of an extent that it does not cover. -/
def edges (first last offset stop : Nat) : List Nat :=
  (if first = last then [first] else [first, last]).filter
    (fun idx => !g.chunkFullyCovered idx offset stop)

/-- The chunks an extent covers, as an inclusive range. -/
def fullRange (first last offset stop : Nat) : Option (Nat × Nat) :=
  let fullFirst := if g.chunkFullyCovered first offset stop then first
    else min (first + 1) (2 ^ 32 - 1)
  let fullLast := if g.chunkFullyCovered last offset stop then some last
    else if last = 0 then none else some (last - 1)
  match fullLast with
  | some fullLast => if fullFirst ≤ fullLast then some (fullFirst, fullLast) else none
  | none => none

/-- A scanned chunk is deleted whole. -/
def stagedDelete (kv : Nat × Bytes) : Write × Int64 :=
  (.delete (.chunk BLOCK_INO kv.1),
    -Int64.ofNat (billedChunkBytes g.sizeBytes (g.chunkBounds kv.1).1 kv.2.length))

/-- The next chunks of the covered range, no more than a batch. -/
def scanFull : Option (Nat × Nat) → FsM (List (Nat × Bytes))
  | none => pure []
  | some (scanFirst, scanLast) => do
      let kvs ← scanChunks BLOCK_INO scanFirst
      pure ((kvs.takeWhile (fun kv => kv.1 ≤ scanLast)).take TRIM_BATCH)

/-- The batches of one trim. The first also carries what was staged for the edges. -/
def trimLoop (range : Option (Nat × Nat)) : Nat → List (Write × Int64) → FsM Unit
  | 0, _ => stuck
  | fuel + 1, staged => do
      let kvs ← scanFull range
      let staged := staged ++ kvs.map g.stagedDelete
      if staged = [] then pure ()
      else
        commit (stagedBatch staged ++ mergeDelta (stagedDelta staged)) (stagedDelta staged) false
        if range.isNone || kvs.length < TRIM_BATCH then pure () else trimLoop range fuel []

def trim (fuel : Nat) (offset len : Nat) : FsM Unit := do
  match ← g.chunkRange offset len with
  | none => pure ()
  | some (first, last) =>
    withGuards (writeRange first last) do
      let stop := offset + len
      let staged ← g.stageAll offset stop (g.edges first last offset stop)
      g.trimLoop (g.fullRange first last offset stop) fuel staged

def writeZeroes (offset len : Nat) (fua : Bool) : FsM Unit := do
  match ← g.chunkRange offset len with
  | none => flushIf fua
  | some (first, last) =>
    withGuards (writeRange first last) do
      let staged ← g.stageAll offset (offset + len) (SlateFs.chunkRange first last)
      if staged = [] then flushIf fua
      else
        commit (stagedBatch staged ++ mergeDelta (stagedDelta staged)) (stagedDelta staged) fua

/-! ## Snapshots -/

/-- Copy the chunks of a range out of a snapshot, one read each. -/
def copyEach (offset : Nat) : List Nat → Bytes → FsM Bytes
  | [], out => pure out
  | idx :: rest, out => do
      let chunk ← dbGet (.chunk BLOCK_INO idx)
      copyEach offset rest (copyChunk g.chunkSize offset idx out chunk)

/-- `SnapshotBlockVolume::read`. -/
def snapshotRead (offset len : Nat) : FsM Bytes := do
  let stop ← ofExcept (g.extentEnd offset len)
  if len = 0 then pure []
  else
    let first ← chunkOf offset g.chunkSize
    let last ← chunkOf (stop - 1) g.chunkSize
    g.copyEach offset (SlateFs.chunkRange first last) (List.replicate (stop - offset) 0)

end BlockVolume

/-- A call on a block volume. -/
inductive BlockOp where
  | read (offset len : Nat)
  | write (offset : Nat) (data : Bytes) (fua : Bool)
  | flush
  | trim (offset len : Nat)
  | writeZeroes (offset len : Nat) (fua : Bool)

/-- The program of a call. -/
def BlockOp.prog (g : BlockVolume) (fuel : Nat) : BlockOp → FsM Reply
  | .read o l => .bytes <$> g.read o l
  | .write o d fua => (fun _ => .done) <$> g.write o d fua
  | .flush => (fun _ => .done) <$> SlateFs.flush
  | .trim o l => (fun _ => .done) <$> g.trim fuel o l
  | .writeZeroes o l fua => (fun _ => .done) <$> g.writeZeroes o l fua

/-- A formatted block volume holds no chunk and is charged one inode. -/
def mkfsBlock : Db := Db.empty.apply [.mergeInodes 1]

/-- Open a block volume: the counters are loaded, nothing else is remembered. -/
def openedBlock (db : Db) (limits : QuotaLimits) (ticks commits : Nat) : St where
  db := db
  mem := { mountedMem db limits ticks with alloc := ⟨0, 0⟩ }
  commits := commits

end SlateFs
