import SlateFs.Control.Records
import SlateFs.Fsck.Check

/-!
# The checker of block volumes

`fsck::check_block`: a block volume holds its superblock, two counters and the chunks
of inode 0. Anything else is a problem; the chunks are billed against the size of the
device. The counter of inodes is expected to say one.
-/

namespace SlateFs.Fsck

inductive BlockProblem where
  | unexpectedKey (key : Key)
  | unexpectedOwner (ino : Ino) (idx : Nat)
  | beyondSize (idx start size : Nat)
  | oversize (idx len : Nat)
  | superblockMissing
  deriving DecidableEq, Repr

structure BlockReport where
  problems : List BlockProblem
  inodesCounted : Int64
  bytesCounted : Int64
  counterInodes : Int64
  counterBytes : Int64

def BlockReport.countersMatch (r : BlockReport) : Bool :=
  r.inodesCounted = r.counterInodes && r.bytesCounted = r.counterBytes

def BlockReport.isClean (r : BlockReport) : Bool := r.problems.isEmpty && r.countersMatch

/-- Records that are not chunks. -/
def unexpectedKeys (db : Db) : List Key :=
  db.inodes.entries.map (fun e => .inode e.1)
  ++ db.dirents.entries.map (fun e => .dirent (ofLex e.1).1 (ofLex e.1).2)
  ++ db.direntIdxs.entries.map (fun e => .direntIdx (ofLex e.1).1 (ofLex e.1).2)
  ++ db.symlinks.entries.map (fun e => .symlink e.1)
  ++ db.xattrs.entries.map (fun e => .xattr (ofLex e.1).1 (ofLex e.1).2)
  ++ db.orphans.entries.map (fun e => .orphan e.1)

/-- The chunks the device owns: index and length. -/
def deviceChunks (db : Db) : List (Nat × Nat) := chunksOf db BLOCK_INO

def deviceProblems (sizeBytes chunkSize : Nat) (c : Nat × Nat) : List BlockProblem :=
  (if sizeBytes ≤ c.1 * chunkSize then [.beyondSize c.1 (c.1 * chunkSize) sizeBytes] else [])
  ++ (if chunkSize < c.2 then [.oversize c.1 c.2] else [])

/-- Verify a block volume's key space and quota counters. -/
def checkBlock (superblock : Option Superblock) (db : Db) (sizeBytes chunkSize : Nat) :
    BlockReport where
  problems :=
    (unexpectedKeys db).map .unexpectedKey
    ++ (db.chunks.entries.filter (fun e => (ofLex e.1).1 ≠ BLOCK_INO)).map
      (fun e => .unexpectedOwner (ofLex e.1).1 (ofLex e.1).2)
    ++ (deviceChunks db).flatMap (deviceProblems sizeBytes chunkSize)
    ++ (if superblock.isNone then [.superblockMissing] else [])
  inodesCounted := 1
  bytesCounted := ((deviceChunks db).map (fun c =>
    Int64.ofNat (billedChunkBytes sizeBytes (c.1 * chunkSize) c.2))).sum
  counterInodes := db.quotaInodes
  counterBytes := db.quotaBytes

end SlateFs.Fsck
