import Mathlib.Data.List.Dedup
import SlateFs.Core.Quota
import SlateFs.Lib.Prog

/-!
# The mounted volume

State of a mounted volume (`volume.rs`, `locks.rs`, `attrcache.rs`,
`meta/alloc.rs`) and the calls an operation makes on it. A storage call may
fail; a call on memory may not. Operations are programs over these calls, so the
places where an operation can be interrupted, interleaved or made to fail are
exactly the calls in its text.

Not modelled: writer fencing and degraded-health bookkeeping, read-ahead (it only
warms a block cache) and metrics.
-/

namespace SlateFs

/-! ## Inode allocator -/

def LEASE_SIZE : Nat := 65536

structure InodeAllocator where
  next : Nat
  leaseEnd : Nat
  deriving DecidableEq

/-- `load`, on the mark it finds: the first lease, whose end it then writes. -/
def InodeAllocator.load (mark : Nat) : Except Invalid InodeAllocator :=
  if mark + LEASE_SIZE < 2 ^ 64 then .ok ⟨mark, mark + LEASE_SIZE⟩
  else .error ⟨"allocator", "inode space exhausted"⟩

/-- One inode number, and the new lease end when the caller must record one. The source
counts in `u64`: this is what it computes while the lease end stays below `2 ^ 64`. -/
def InodeAllocator.allocate (a : InodeAllocator) : (Ino × Option Nat) × InodeAllocator :=
  if a.next + 1 = a.leaseEnd then
    ((a.next, some (a.leaseEnd + LEASE_SIZE)), ⟨a.next + 1, a.leaseEnd + LEASE_SIZE⟩)
  else ((a.next, none), ⟨a.next + 1, a.leaseEnd⟩)

/-! ## Open handles -/

structure HandleTable where
  next : Nat
  byHandle : OrdMap Nat (Ino × OpenMode)
  /-- Open handles per inode, counted in 32 bits. -/
  openCount : OrdMap Ino UInt32
  deriving DecidableEq

namespace HandleTable

def empty : HandleTable := ⟨0, ∅, ∅⟩

def openHandle (t : HandleTable) (ino : Ino) (mode : OpenMode) : Nat × HandleTable :=
  (t.next + 1,
    { next := t.next + 1
      byHandle := t.byHandle.insert (t.next + 1) (ino, mode)
      openCount := t.openCount.insert ino ((t.openCount.get? ino).getD 0 + 1) })

/-- The closed handle's inode and mode, and whether it was the inode's last handle. -/
def close (t : HandleTable) (handle : Nat) : Option (Ino × OpenMode × Bool) × HandleTable :=
  match t.byHandle.get? handle with
  | none => (none, t)
  | some (ino, mode) =>
    let t := { t with byHandle := t.byHandle.erase handle }
    match t.openCount.get? ino with
    | none => (none, t)
    | some count =>
      if count - 1 = 0 then
        (some (ino, mode, true), { t with openCount := t.openCount.erase ino })
      else (some (ino, mode, false), { t with openCount := t.openCount.insert ino (count - 1) })

def isOpen (t : HandleTable) (ino : Ino) : Bool := (t.openCount.get? ino).isSome

end HandleTable

/-! ## Attribute cache -/

structure AttrCache where
  attrs : OrdMap Ino Inode
  /-- (parent, name) pairs known not to exist. -/
  negative : OrdMap (Ino ×ₗ Bytes) Unit
  deriving DecidableEq

/-! ## Advisory byte-range locks -/

structure LockRange where
  start : Nat
  /-- Exclusive. -/
  stop : Nat
  deriving DecidableEq

structure RangeLock where
  owner : Nat
  range : LockRange
  exclusive : Bool
  deriving DecidableEq

structure RangeLockTable where
  byIno : OrdMap Ino (List RangeLock)
  deriving DecidableEq

def LockRange.overlaps (a b : LockRange) : Bool := a.start < b.stop && b.start < a.stop

namespace RangeLockTable

/-- A lock another owner holds that would block this one. -/
def conflict (locks : List RangeLock) (l : RangeLock) : Option RangeLock :=
  locks.find? (fun o => o.owner ≠ l.owner && o.range.overlaps l.range &&
    (o.exclusive || l.exclusive))

/-- What is left of one lock after a range is taken out of it. -/
def survivors (l : RangeLock) (range : LockRange) : List RangeLock :=
  (if l.range.start < range.start then [{ l with range := ⟨l.range.start, range.start⟩ }] else [])
  ++ (if range.stop < l.range.stop then [{ l with range := ⟨range.stop, l.range.stop⟩ }] else [])

/-- Remove a range from an owner's locks, splitting partially covered ones. -/
def carve (locks : List RangeLock) (owner : Nat) (range : LockRange) : List RangeLock :=
  let hit := fun l : RangeLock => l.owner = owner && l.range.overlaps range
  locks.filter (fun l => !hit l) ++ (locks.filter hit).flatMap (fun l => survivors l range)

def locksOf (t : RangeLockTable) (ino : Ino) : List RangeLock := (t.byIno.get? ino).getD []

def tryLock (t : RangeLockTable) (ino : Ino) (lock : RangeLock) :
    Except RangeLock Unit × RangeLockTable :=
  match conflict (t.locksOf ino) lock with
  | some c => (.error c, ⟨t.byIno.insert ino (t.locksOf ino)⟩)
  | none =>
    (.ok (), ⟨t.byIno.insert ino (carve (t.locksOf ino) lock.owner lock.range ++ [lock])⟩)

def test (t : RangeLockTable) (ino : Ino) (probe : RangeLock) : Option RangeLock :=
  conflict (t.locksOf ino) probe

def unlock (t : RangeLockTable) (ino : Ino) (owner : Nat) (range : LockRange) : RangeLockTable :=
  match t.byIno.get? ino with
  | none => t
  | some locks =>
    let left := carve locks owner range
    if left = [] then ⟨t.byIno.erase ino⟩ else ⟨t.byIno.insert ino left⟩

/-- Drop everything held by an owner; inodes left without locks leave the table. -/
def unlockOwner (t : RangeLockTable) (owner : Nat) : RangeLockTable :=
  t.byIno.entries.foldl
    (fun acc e =>
      let locks := e.2.filter (fun l => l.owner ≠ owner)
      if locks = [] then ⟨acc.byIno.erase e.1⟩ else ⟨acc.byIno.insert e.1 locks⟩) t

end RangeLockTable

/-! ## Lock manager -/

def STRIPES : Nat := 1024

inductive Lock where
  | stripe (i : Nat)
  /-- The volume-wide rename mutex. -/
  | rename
  deriving DecidableEq, Repr

/-- The multiplicative mix that maps an inode number to its stripe. -/
def stripeOf (ino : Ino) : Nat := ino * 0x9E3779B97F4A7C15 % 2 ^ 64 / 2 ^ 52 % STRIPES

/-- The stripes of a set of inodes, deduplicated, in stripe order. -/
def writeMany (inos : List Ino) : List Lock :=
  (((inos.map stripeOf).insertionSort (· ≤ ·)).dedup).map .stripe

lemma stripe_mem_writeMany {inos : List Ino} {ino : Ino} (h : ino ∈ inos) :
    .stripe (stripeOf ino) ∈ writeMany inos := by
  refine List.mem_map_of_mem (List.mem_dedup.mpr ?_)
  exact (List.mem_insertionSort _).mpr (List.mem_map_of_mem h)

/-! ## State -/

structure Mem where
  quota : QuotaTracker
  alloc : InodeAllocator
  handles : HandleTable
  attrs : AttrCache
  rangeLocks : RangeLockTable
  /-- How often the environment was consulted. -/
  ticks : Nat
  deriving DecidableEq

structure St where
  db : Db
  mem : Mem
  /-- Batches committed so far. -/
  commits : Nat
  deriving DecidableEq

/-- The parts of a volume that never change while it is mounted. -/
structure Volume where
  chunkSize : Nat
  names : NameCodec
  /-- The superblock keeps the chunk size in 32 bits. -/
  chunkSize_lt : chunkSize < 2 ^ 32

/-- What the outside decides: clock readings, and which cached entries were evicted. -/
structure Env where
  clock : Nat → Timespec
  unix : Nat → Nat
  evicted : Nat → Bool

/-- Names in the clear and chunks of a page, for runs on concrete inputs. -/
def Volume.plain : Volume := ⟨4096, ⟨fun _ n => n, fun _ n => some n, fun _ _ => rfl⟩, by decide⟩

/-- The clock stands still and nothing is evicted. -/
def Env.still : Env := ⟨fun _ => ⟨0, 0⟩, fun _ => 0, fun _ => false⟩

/-! ## Calls -/

/-- The storage engine reported an error. -/
inductive StorageError where
  | engine
  deriving DecidableEq

inductive Call where
  | get (k : Key)
  | scanDirents (parent : Ino)
  | scanChunks (ino : Ino) (first : Nat)
  | scanXattrs (ino : Ino)
  | scanDirentIdxs (parent : Ino) (first : Nat)
  | scanOrphans
  | snapshot
  | commit (b : Batch)
  | putNextIno (leaseEnd : Nat)
  | now
  | attrsGet (ino : Ino)
  | attrsInsert (ino : Ino) (i : Inode)
  | attrsRemove (ino : Ino)
  | isNegative (parent : Ino) (name : Bytes)
  | insertNegative (parent : Ino) (name : Bytes)
  | removeNegative (parent : Ino) (name : Bytes)
  | reserve (bytesDelta inodeDelta : Int64)
  | release (bytesDelta inodeDelta : Int64)
  | checkNotOver
  | allocate
  | handlesOpen (ino : Ino) (mode : OpenMode)
  | handlesClose (handle : Nat)
  | handlesGet (handle : Nat)
  | handlesIsOpen (ino : Ino)
  | rangeTryLock (ino : Ino) (lock : RangeLock)
  | rangeTest (ino : Ino) (probe : RangeLock)
  | rangeUnlock (ino : Ino) (owner : Nat) (range : LockRange)
  | unlockOwner (owner : Nat)
  | quota
  | flush

def Call.Ret : Call → Type
  | .get k => Except StorageError (Option k.Val)
  | .scanDirents _ => Except StorageError (List (Bytes × Dirent))
  | .scanChunks _ _ => Except StorageError (List (Nat × Bytes))
  | .scanXattrs _ => Except StorageError (List (Bytes × Bytes))
  | .scanDirentIdxs _ _ => Except StorageError (List (Nat × DirentIdx))
  | .scanOrphans => Except StorageError (List (Ino × Orphan))
  | .snapshot => Except StorageError Db
  | .commit _ => Except StorageError Unit
  | .putNextIno _ => Except StorageError Unit
  | .now => Timespec
  | .attrsGet _ => Option Inode
  | .attrsInsert _ _ => Unit
  | .attrsRemove _ => Unit
  | .isNegative _ _ => Bool
  | .insertNegative _ _ => Unit
  | .removeNegative _ _ => Unit
  | .reserve _ _ => Except FsError Unit
  | .release _ _ => Unit
  | .checkNotOver => Except FsError Unit
  | .allocate => Ino × Option Nat
  | .handlesOpen _ _ => Nat
  | .handlesClose _ => Option (Ino × OpenMode × Bool)
  | .handlesGet _ => Option (Ino × OpenMode)
  | .handlesIsOpen _ => Bool
  | .rangeTryLock _ _ => Except RangeLock Unit
  | .rangeTest _ _ => Option RangeLock
  | .rangeUnlock _ _ _ => Unit
  | .unlockOwner _ => Unit
  | .quota => QuotaTracker
  | .flush => Except StorageError Unit

/-- The answer of a storage call that fails. A call on memory has none. -/
def Call.failure : (c : Call) → Option c.Ret
  | .get _ => some (.error .engine)
  | .scanDirents _ => some (.error .engine)
  | .scanChunks _ _ => some (.error .engine)
  | .scanXattrs _ => some (.error .engine)
  | .scanDirentIdxs _ _ => some (.error .engine)
  | .scanOrphans => some (.error .engine)
  | .snapshot => some (.error .engine)
  | .commit _ => some (.error .engine)
  | .putNextIno _ => some (.error .engine)
  | .flush => some (.error .engine)
  | _ => none

def St.tick (s : St) : St := { s with mem := { s.mem with ticks := s.mem.ticks + 1 } }

def St.setAttrs (s : St) (a : AttrCache) : St := { s with mem := { s.mem with attrs := a } }

def St.setQuota (s : St) (q : QuotaTracker) : St := { s with mem := { s.mem with quota := q } }

def St.setHandles (s : St) (t : HandleTable) : St := { s with mem := { s.mem with handles := t } }

def St.setRangeLocks (s : St) (t : RangeLockTable) : St :=
  { s with mem := { s.mem with rangeLocks := t } }

/-- How a call is answered when nothing fails, and what it does. -/
def Call.answer (env : Env) : (c : Call) → St → c.Ret × St
  | .get k, s => (.ok (s.db.get k), s)
  | .scanDirents p, s => (.ok (s.db.direntsOf p), s)
  | .scanChunks ino first, s => (.ok (s.db.chunksFrom ino first), s)
  | .scanXattrs ino, s => (.ok (s.db.xattrsOf ino), s)
  | .scanDirentIdxs p first, s => (.ok (s.db.direntIdxsFrom p first), s)
  | .scanOrphans, s => (.ok s.db.orphansOf, s)
  | .snapshot, s => (.ok s.db, s)
  | .commit b, s => (.ok (), { s with db := s.db.apply b, commits := s.commits + 1 })
  | .putNextIno e, s => (.ok (), { s with db := { s.db with nextIno := e } })
  | .now, s => (env.clock s.mem.ticks, s.tick)
  | .attrsGet ino, s =>
    -- the cache may have evicted the entry at any time before it is asked for
    if env.evicted s.mem.ticks then
      (none, (s.setAttrs { s.mem.attrs with attrs := s.mem.attrs.attrs.erase ino }).tick)
    else (s.mem.attrs.attrs.get? ino, s.tick)
  | .attrsInsert ino i, s =>
    ((), s.setAttrs { s.mem.attrs with attrs := s.mem.attrs.attrs.insert ino i })
  | .attrsRemove ino, s =>
    ((), s.setAttrs { s.mem.attrs with attrs := s.mem.attrs.attrs.erase ino })
  | .isNegative p n, s =>
    if env.evicted s.mem.ticks then
      (false, (s.setAttrs
        { s.mem.attrs with negative := s.mem.attrs.negative.erase (toLex (p, n)) }).tick)
    else ((s.mem.attrs.negative.get? (toLex (p, n))).isSome, s.tick)
  | .insertNegative p n, s =>
    ((), s.setAttrs { s.mem.attrs with negative := s.mem.attrs.negative.insert (toLex (p, n)) () })
  | .removeNegative p n, s =>
    ((), s.setAttrs { s.mem.attrs with negative := s.mem.attrs.negative.erase (toLex (p, n)) })
  | .reserve b i, s =>
    let r := s.mem.quota.reserve b i (env.unix s.mem.ticks)
    (r.1, (s.setQuota r.2).tick)
  | .release b i, s => ((), s.setQuota (s.mem.quota.release b i))
  | .checkNotOver, s =>
    let r := s.mem.quota.checkNotOver (env.unix s.mem.ticks)
    (r.1, (s.setQuota r.2).tick)
  | .allocate, s =>
    let r := s.mem.alloc.allocate
    (r.1, { s with mem := { s.mem with alloc := r.2 } })
  | .handlesOpen ino mode, s =>
    let r := s.mem.handles.openHandle ino mode
    (r.1, s.setHandles r.2)
  | .handlesClose h, s =>
    let r := s.mem.handles.close h
    (r.1, s.setHandles r.2)
  | .handlesGet h, s => (s.mem.handles.byHandle.get? h, s)
  | .handlesIsOpen ino, s => (s.mem.handles.isOpen ino, s)
  | .rangeTryLock ino l, s =>
    let r := s.mem.rangeLocks.tryLock ino l
    (r.1, s.setRangeLocks r.2)
  | .rangeTest ino l, s => (s.mem.rangeLocks.test ino l, s)
  | .rangeUnlock ino o r, s => ((), s.setRangeLocks (s.mem.rangeLocks.unlock ino o r))
  | .unlockOwner o, s => ((), s.setRangeLocks (s.mem.rangeLocks.unlockOwner o))
  | .quota, s => (s.mem.quota, s)
  | .flush, s => (.ok (), s)

/-- How a call may be answered: as above, whatever the clock says and the cache evicts,
or with a storage error that changes nothing. -/
def Call.may (c : Call) (s : St) (r : c.Ret) (s' : St) : Prop :=
  (∃ env, c.answer env s = (r, s')) ∨ (c.failure = some r ∧ s' = s)

lemma Call.may_answer (env : Env) (c : Call) (s : St) :
    c.may s (c.answer env s).1 (c.answer env s).2 := .inl ⟨env, rfl⟩

lemma Call.may_fail (c : Call) (s : St) (r : c.Ret) (h : c.failure = some r) : c.may s r s :=
  .inr ⟨h, rfl⟩

end SlateFs
