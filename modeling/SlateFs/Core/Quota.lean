import SlateFs.Core.Vfs

/-!
# Quota accounting

The in-memory tracker and the accounting rule (`quota.rs`). Counters are signed
64-bit with wrapping addition, in memory and in the store.
-/

namespace SlateFs

/-- `Error::Invalid` -/
structure Invalid where
  what : String
  reason : String
  deriving DecidableEq, Repr

structure QuotaLimit where
  hard : Option Nat := none
  soft : Option Nat := none
  graceUntil : Option Nat := none
  deriving DecidableEq, Repr

structure QuotaLimits where
  bytes : QuotaLimit := {}
  inodes : QuotaLimit := {}
  deriving DecidableEq, Repr

/-- Billed bytes a chunk contributes given the file size. -/
def billedChunkBytes (size chunkStart valueLen : Nat) : Nat := min valueLen (size - chunkStart)

/-- Limits are unsigned and usage is signed: the limit is reinterpreted as `i64`. -/
def exceedsLimit (usage : Int64) (limit : QuotaLimit) (now : Nat) : Bool :=
  (match limit.hard with
    | some hard => decide (Int64.ofNat hard < usage)
    | none => false)
  || (match limit.soft, limit.graceUntil with
    | some soft, some grace => decide (Int64.ofNat soft < usage) && decide (grace ≤ now)
    | _, _ => false)

/-- In-memory usage and limits of one mounted volume. -/
structure QuotaTracker where
  bytes : Int64
  inodes : Int64
  rejections : Nat
  limits : QuotaLimits
  deriving DecidableEq

namespace QuotaTracker

def new (bytes inodes : Int64) (limits : QuotaLimits) : QuotaTracker := ⟨bytes, inodes, 0, limits⟩

/-- `bytes.fetch_add` -/
def addBytes (q : QuotaTracker) (delta : Int64) : QuotaTracker :=
  { q with bytes := q.bytes + delta }

/-- `bytes.fetch_sub` -/
def subBytes (q : QuotaTracker) (delta : Int64) : QuotaTracker :=
  { q with bytes := q.bytes - delta }

/-- `inodes.fetch_add` -/
def addInodes (q : QuotaTracker) (delta : Int64) : QuotaTracker :=
  { q with inodes := q.inodes + delta }

/-- `inodes.fetch_sub` -/
def subInodes (q : QuotaTracker) (delta : Int64) : QuotaTracker :=
  { q with inodes := q.inodes - delta }

/-- `rejections.fetch_add(1)` -/
def rejected (q : QuotaTracker) : QuotaTracker := { q with rejections := q.rejections + 1 }

/--
Reserve usage before building the mutation batch. Each counter is charged before it is
checked, and what has been charged is taken back when a check rejects.
-/
def reserve (q : QuotaTracker) (bytesDelta inodeDelta : Int64) (now : Nat) :
    Except FsError Unit × QuotaTracker :=
  let q₁ := q.addBytes bytesDelta
  if 0 < bytesDelta ∧ exceedsLimit q₁.bytes q.limits.bytes now then
    (.error .quotaExceeded, (q₁.subBytes bytesDelta).rejected)
  else
    let q₂ := q₁.addInodes inodeDelta
    if 0 < inodeDelta ∧ exceedsLimit q₂.inodes q.limits.inodes now then
      (.error .quotaExceeded, ((q₂.subInodes inodeDelta).subBytes bytesDelta).rejected)
    else (.ok (), q₂)

/-- Roll back a reservation whose batch failed to commit. -/
def release (q : QuotaTracker) (bytesDelta inodeDelta : Int64) : QuotaTracker :=
  (q.subBytes bytesDelta).subInodes inodeDelta

/-- Over-limit check for operations that change no accounted usage. -/
def checkNotOver (q : QuotaTracker) (now : Nat) : Except FsError Unit × QuotaTracker :=
  if exceedsLimit q.bytes q.limits.bytes now then
    (.error .quotaExceeded, { q with rejections := q.rejections + 1 })
  else (.ok (), q)

end QuotaTracker

end SlateFs
