import SlateFs.Core.Meta

/-!
# The Vfs vocabulary

Errors, credentials and the argument and result records of the `Vfs` trait
(`vfs.rs`), with the permission rules every operation shares.
-/

namespace SlateFs

/-- errno-style errors. -/
inductive FsError where
  | notPermitted | notFound | io | badHandle | wouldBlock | accessDenied | exists | crossDevice
  | notDir | isDir | invalid | fileTooBig | noSpace | tooManyLinks | nameTooLong | notEmpty
  | noData | notSupported | stale | quotaExceeded | readOnly
  deriving DecidableEq, Repr

structure Credentials where
  uid : UInt32
  gid : UInt32
  groups : List UInt32
  /-- The frontend vouches that the client already enforced access rules. -/
  trusted : Bool
  deriving DecidableEq, Repr

namespace Credentials

def root : Credentials := ⟨0, 0, [], false⟩

def user (uid gid : UInt32) : Credentials := ⟨uid, gid, [], false⟩

def isRoot (c : Credentials) : Bool := c.uid = 0

def isPrivileged (c : Credentials) : Bool := c.uid = 0 || c.trusted

def inGroup (c : Credentials) (gid : UInt32) : Bool := c.gid = gid || c.groups.contains gid

end Credentials

/-- Stat data returned to frontends. -/
structure FileAttr where
  ino : Ino
  kind : FileKind
  mode : UInt32
  nlink : UInt32
  uid : UInt32
  gid : UInt32
  size : Nat
  atime : Timespec
  mtime : Timespec
  ctime : Timespec
  rdev : Nat
  generation : UInt32
  /-- 512-byte units, from billed bytes. -/
  blocks : Nat
  deriving DecidableEq, Repr

/-- `billed_bytes.div_ceil(512)` gives the block count. -/
def makeAttr (ino : Ino) (i : Inode) : FileAttr where
  ino := ino
  kind := i.kind
  mode := i.mode
  nlink := i.nlink
  uid := i.uid
  gid := i.gid
  size := i.size
  atime := i.atime
  mtime := i.mtime
  ctime := i.ctime
  rdev := i.rdev
  generation := i.generation
  blocks := (i.billedBytes.toNat + 511) / 512

inductive TimeSet where
  | now
  | time (t : Timespec)
  deriving DecidableEq, Repr

structure SetAttrs where
  mode : Option UInt32 := none
  uid : Option UInt32 := none
  gid : Option UInt32 := none
  size : Option Nat := none
  atime : Option TimeSet := none
  mtime : Option TimeSet := none
  deriving DecidableEq, Repr

inductive OpenMode where
  | read | write | readWrite
  deriving DecidableEq, Repr

/-- `AtimeMode` of the export. -/
inductive AtimeMode where
  | strict | relatime | noatime
  deriving DecidableEq, Repr

/-! ## Access rules -/

def ACCESS_R : UInt32 := 4

def ACCESS_W : UInt32 := 2

def ACCESS_X : UInt32 := 1

/-- Names are non-empty, at most 255 bytes, and hold neither '/' nor NUL. -/
def validateName (name : Bytes) : Except FsError Unit :=
  if name = [] ∨ name = [46] ∨ name = [46, 46] then .error .invalid
  else if MAX_NAME_LEN < name.length then .error .nameTooLong
  else if 47 ∈ name ∨ 0 ∈ name then .error .invalid
  else .ok ()

variable (creds : Credentials)

def access (i : Inode) (want : UInt32) : Except FsError Unit :=
  if creds.isPrivileged then .ok ()
  else
    let bits :=
      if creds.uid = i.uid then (i.mode >>> 6) &&& 7
      else if creds.inGroup i.gid then (i.mode >>> 3) &&& 7
      else i.mode &&& 7
    if bits &&& want = want then .ok () else .error .accessDenied

/-- In a sticky directory only the entry's owner, the directory's owner or root may remove it. -/
def checkSticky (parent child : Inode) : Except FsError Unit :=
  if parent.mode &&& 0o1000 ≠ 0 ∧ ¬creds.isPrivileged ∧ creds.uid ≠ child.uid
      ∧ creds.uid ≠ parent.uid then .error .notPermitted
  else .ok ()

/-- uid, gid and mode for a new node, honoring setgid directory inheritance. -/
def newNodeIds (parent : Inode) (kind : FileKind) (mode : UInt32) :
    UInt32 × UInt32 × UInt32 :=
  let gid := if parent.mode &&& 0o2000 ≠ 0 then parent.gid else creds.gid
  let mode := if kind.isDir ∧ parent.mode &&& 0o2000 ≠ 0 then mode ||| 0o2000 else mode
  (creds.uid, gid, mode)

/-- A day, in nanoseconds. -/
def RELATIME_NANOS : Int := 24 * 3600 * 1000000000

def olderThan (atime now : Timespec) (ageNanos : Int) : Bool :=
  (now.secs - atime.secs) * 1000000000 + now.nanos - atime.nanos > ageNanos

def atimeUpdateDue (policy : AtimeMode) (i : Inode) (ts : Timespec) : Bool :=
  match policy with
  | .strict => true
  | .relatime => i.atime.lt i.mtime || i.atime.lt i.ctime || olderThan i.atime ts RELATIME_NANOS
  | .noatime => false

end SlateFs
