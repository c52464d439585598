import SlateFs.Core.VfsImpl

/-!
# Calls, formatting and mounting

The calls a frontend can make, as one type, and the two ways a volume comes to
be served: it is formatted once (`mkfs`), and every mount reaps what a crash left
behind before it loads the counters and the allocator (`volume.rs`).
-/

namespace SlateFs

open FsM

/-- A call into the filesystem. -/
inductive Op where
  | lookup (parent : Ino) (name : Bytes)
  | getattr (ino : Ino)
  | permissions (ino : Ino) (parent : Option (Ino × Bytes))
  | setattr (ino : Ino) (attrs : SetAttrs)
  | read (ino : Ino) (offset len : Nat) (policy : AtimeMode)
  | write (ino : Ino) (offset : Nat) (data : Bytes)
  | create (parent : Ino) (name : Bytes) (mode : UInt32) (exclusive : Bool)
  | mkdir (parent : Ino) (name : Bytes) (mode : UInt32)
  | mknod (parent : Ino) (name : Bytes) (mode : UInt32) (kind : FileKind) (rdev : Nat)
  | symlink (parent : Ino) (name target : Bytes)
  | readlink (ino : Ino)
  | link (ino : Ino) (newParent : Ino) (newName : Bytes)
  | unlink (parent : Ino) (name : Bytes)
  | rmdir (parent : Ino) (name : Bytes)
  | rename (oldParent : Ino) (oldName : Bytes) (newParent : Ino) (newName : Bytes)
  | readdir (parent : Ino) (cookie maxEntries : Nat)
  | getxattr (ino : Ino) (name : Bytes)
  | setxattr (ino : Ino) (name value : Bytes)
  | listxattr (ino : Ino)
  | removexattr (ino : Ino) (name : Bytes)
  | statfs
  | fsync
  | openFile (ino : Ino) (mode : OpenMode)
  | closeFile (handle : Nat)
  | lockRange (handle start stop : Nat) (exclusive : Bool)
  | unlockRange (handle start stop : Nat)
  | testLock (handle start stop : Nat) (exclusive : Bool)

/-- What a successful call returns. -/
inductive Reply where
  | done
  | attr (a : FileAttr)
  | perms (p : EntryPermissions)
  | bytes (b : Bytes)
  | count (n : Nat)
  | entries (es : List DirEntry) (eof : Bool)
  | names (ns : List Bytes)
  | stat (s : StatFs)
  | handle (h : Nat)
  | holder (l : Option (Nat × Nat × Bool))
  deriving DecidableEq

/-- The program of a call. -/
def Op.prog (v : Volume) (fuel : Nat) (creds : Credentials) : Op → FsM Reply
  | .lookup p n => .attr <$> SlateFs.lookup v creds p n
  | .getattr ino => .attr <$> SlateFs.getattr ino
  | .permissions ino p => .perms <$> SlateFs.permissions creds ino p
  | .setattr ino a => .attr <$> SlateFs.setattr v creds ino a
  | .read ino o l policy => .bytes <$> readWithAtimePolicy v creds ino o l policy
  | .write ino o d => .count <$> SlateFs.write v creds ino o d
  | .create p n m x => .attr <$> SlateFs.create v creds p n m x
  | .mkdir p n m => .attr <$> SlateFs.mkdir v creds p n m
  | .mknod p n m k r => .attr <$> SlateFs.mknod v creds p n m k r
  | .symlink p n t => .attr <$> SlateFs.symlink v creds p n t
  | .readlink ino => .bytes <$> SlateFs.readlink ino
  | .link ino p n => .attr <$> SlateFs.link v creds ino p n
  | .unlink p n => (fun _ => .done) <$> SlateFs.unlink fuel v creds p n
  | .rmdir p n => (fun _ => .done) <$> SlateFs.rmdir fuel v creds p n
  | .rename p n p' n' => (fun _ => .done) <$> SlateFs.rename fuel v creds p n p' n'
  | .readdir p c m => (fun r => .entries r.1 r.2) <$> SlateFs.readdir v creds p c m
  | .getxattr ino n => .bytes <$> SlateFs.getxattr creds ino n
  | .setxattr ino n x => (fun _ => .done) <$> SlateFs.setxattr creds ino n x
  | .listxattr ino => .names <$> SlateFs.listxattr creds ino
  | .removexattr ino n => (fun _ => .done) <$> SlateFs.removexattr creds ino n
  | .statfs => .stat <$> SlateFs.statfs
  | .fsync => (fun _ => .done) <$> SlateFs.fsync
  | .openFile ino m => .handle <$> SlateFs.openFile creds ino m
  | .closeFile h => (fun _ => .done) <$> SlateFs.closeFile fuel h
  | .lockRange h a b x => (fun _ => .done) <$> SlateFs.lockRange h a b x
  | .unlockRange h a b => (fun _ => .done) <$> SlateFs.unlockRange h a b
  | .testLock h a b x => .holder <$> SlateFs.testLock h a b x

/-! ## Formatting -/

def Db.empty : Db := ⟨∅, ∅, ∅, ∅, ∅, ∅, ∅, 0, 0, 0⟩

def rootInode (ts : Timespec) : Inode :=
  { Inode.new .dir 0o755 0 0 ts with parentDir := ROOT_INO }

/-- A freshly formatted volume: the root directory, the allocator mark, one inode charged. -/
def mkfs (ts : Timespec) : Db :=
  { Db.empty.apply [.put (.inode ROOT_INO) (rootInode ts), .mergeInodes 1] with
    nextIno := ROOT_INO + 1 }

/-! ## Mounting -/

/-- Reap the orphans a crash left, one after another. -/
def reapEach (fuel : Nat) : List (Ino × Orphan) → FsM Unit
  | [] => pure ()
  | (ino, _) :: rest => do
      match ← dbGet (.inode ino) with
      | some i => commit (finishBatch ino i)
      | none => pure ()
      reapOrphanData fuel ino
      reapEach fuel rest

def reapCrashedOrphans (fuel : Nat) : FsM Unit := do
  let orphans ← scanOrphans
  reapEach fuel orphans

/-- Counters from the store, a first lease from the mark, and nothing else remembered. -/
def mountedMem (db : Db) (limits : QuotaLimits) (ticks : Nat) : Mem where
  quota := QuotaTracker.new db.quotaBytes db.quotaInodes limits
  alloc := ⟨db.nextIno, db.nextIno + LEASE_SIZE⟩
  handles := HandleTable.empty
  attrs := ⟨∅, ∅⟩
  rangeLocks := ⟨∅⟩
  ticks := ticks

/-- Counters and allocator from the store, and the end of the first lease written. -/
def St.mounted (s : St) (limits : QuotaLimits) : St where
  db := { s.db with nextIno := s.db.nextIno + LEASE_SIZE }
  mem := mountedMem s.db limits s.mem.ticks
  commits := s.commits

/-- A formatted volume, mounted for the first time. -/
def freshVolume (ts : Timespec) (limits : QuotaLimits) : St :=
  St.mounted ⟨mkfs ts, mountedMem (mkfs ts) limits 0, 0⟩ limits

/-- The volume once counters and allocator are loaded, if there are numbers left. -/
def St.load (s : St) (limits : QuotaLimits) : Except Invalid St :=
  (InodeAllocator.load s.db.nextIno).map fun _ => s.mounted limits

/-- Mount what is in the store: reap, then load. -/
def mount (env : Env) (fuel : Nat) (limits : QuotaLimits) (s : St) : Option St :=
  match (reapCrashedOrphans fuel).run.run (Call.answer env) s with
  | some (.ok _, s') => (s'.load limits).toOption
  | _ => none

end SlateFs
