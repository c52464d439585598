import SlateFs.Core.Volume

/-!
# Operations as programs

An operation is a program over the volume's calls that ends in a value or an
error. `?` in the source is bind here. A panic is not an error: it is not
caught by an error mapping, but it still drops the guards it holds.
-/

namespace SlateFs

/-- How an operation ends early. -/
inductive Abort where
  | err (e : FsError)
  | panic
  deriving DecidableEq

/-- An operation in progress. -/
abbrev FsM := ExceptT Abort (Prog Call Call.Ret Lock)

variable {α : Type}

namespace FsM

/-- Make one call. -/
def call (c : Call) : FsM c.Ret := ExceptT.lift (Prog.call c Prog.ret)

/-- Return an error. -/
def fail (e : FsError) : FsM α := throw (.err e)

def panicked : FsM α := throw .panic

/-- A loop ran out of fuel: the operation does not return. -/
def stuck : FsM α := ExceptT.mk Prog.stuck

def ofExcept : Except FsError α → FsM α
  | .ok a => pure a
  | .error e => fail e

/-- A storage error becomes `EIO`. -/
def mapStorage : Except StorageError α → FsM α
  | .ok a => pure a
  | .error _ => fail .io

/-- `.map_err(|_| e)` -/
def mapErr (e : FsError) (p : FsM α) : FsM α :=
  ExceptT.mk (p.run >>= fun r =>
    match r with
    | .error (.err _) => pure (.error (.err e))
    | r => pure r)

def acquireAll : List Lock → Prog Call Call.Ret Lock Unit
  | [] => Prog.ret ()
  | l :: ls => Prog.acquire l (acquireAll ls)

def releaseAll : List Lock → Prog Call Call.Ret Lock Unit
  | [] => Prog.ret ()
  | l :: ls => Prog.release l (releaseAll ls)

/-- Run a body holding locks. They are taken in order and dropped however it ends. -/
def withGuards (ls : List Lock) (body : FsM α) : FsM α :=
  ExceptT.mk do
    acquireAll ls
    let r ← body.run
    releaseAll ls
    pure r

end FsM

open FsM

/-! ## Storage calls -/

/-- A point read; the caller looks at the outcome itself. -/
def tryGet (k : Key) : FsM (Except StorageError (Option k.Val)) := call (.get k)

def dbGet (k : Key) : FsM (Option k.Val) := do
  let r ← tryGet k
  mapStorage r

/-- Commit a batch; the caller looks at the outcome itself. -/
def tryCommit (b : Batch) : FsM (Except StorageError Unit) := call (.commit b)

def commit (b : Batch) : FsM Unit := do
  let r ← tryCommit b
  mapStorage r

def scanDirents (parent : Ino) : FsM (List (Bytes × Dirent)) := do
  let r ← call (.scanDirents parent)
  mapStorage r

def scanChunks (ino : Ino) (first : Nat) : FsM (List (Nat × Bytes)) := do
  let r ← call (.scanChunks ino first)
  mapStorage r

def scanXattrs (ino : Ino) : FsM (List (Bytes × Bytes)) := do
  let r ← call (.scanXattrs ino)
  mapStorage r

def scanDirentIdxs (parent : Ino) (first : Nat) : FsM (List (Nat × DirentIdx)) := do
  let r ← call (.scanDirentIdxs parent first)
  mapStorage r

def scanOrphans : FsM (List (Ino × Orphan)) := do
  let r ← call .scanOrphans
  mapStorage r

def snapshot : FsM Db := do
  let r ← call .snapshot
  mapStorage r

def putNextIno (leaseEnd : Nat) : FsM Unit := do
  let r ← call (.putNextIno leaseEnd)
  mapStorage r

def flush : FsM Unit := do
  let r ← call .flush
  mapStorage r

/-! ## Calls on memory -/

def now : FsM Timespec := call .now

def attrsGet (ino : Ino) : FsM (Option Inode) := call (.attrsGet ino)

def attrsInsert (ino : Ino) (i : Inode) : FsM Unit := call (.attrsInsert ino i)

def attrsRemove (ino : Ino) : FsM Unit := call (.attrsRemove ino)

def isNegative (parent : Ino) (name : Bytes) : FsM Bool := call (.isNegative parent name)

def insertNegative (parent : Ino) (name : Bytes) : FsM Unit := call (.insertNegative parent name)

def removeNegative (parent : Ino) (name : Bytes) : FsM Unit := call (.removeNegative parent name)

def reserve (bytesDelta inodeDelta : Int64) : FsM Unit := do
  let r ← call (.reserve bytesDelta inodeDelta)
  ofExcept r

/-- `let _ = self.quota.reserve(..)`: the answer is dropped. -/
def reserveQuiet (bytesDelta inodeDelta : Int64) : FsM Unit := do
  let _ ← call (.reserve bytesDelta inodeDelta)

def releaseQuota (bytesDelta inodeDelta : Int64) : FsM Unit := call (.release bytesDelta inodeDelta)

def checkNotOver : FsM Unit := do
  let r ← call .checkNotOver
  ofExcept r

def allocate : FsM (Ino × Option Nat) := call .allocate

def handlesOpen (ino : Ino) (mode : OpenMode) : FsM Nat := call (.handlesOpen ino mode)

def handlesClose (handle : Nat) : FsM (Option (Ino × OpenMode × Bool)) :=
  call (.handlesClose handle)

def handlesGet (handle : Nat) : FsM (Option (Ino × OpenMode)) := call (.handlesGet handle)

def handlesIsOpen (ino : Ino) : FsM Bool := call (.handlesIsOpen ino)

/-- Drop every byte-range lock of a handle. -/
def unlockOwner (owner : Nat) : FsM Unit := call (.unlockOwner owner)

end SlateFs
