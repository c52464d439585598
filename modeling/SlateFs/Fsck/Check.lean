import Mathlib.Data.UInt
import SlateFs.Core.Quota
import SlateFs.Lib.Worklist

/-!
# The volume checker

`fsck.rs`: read every record, look for structural violations and recount the
quota usage. A clean report is what the crash tests ask for.

The source keeps the scanned families in hash maps, so the order of the reported
problems is unspecified; here it is key order. The counters it keeps per inode
are `u32` and the recounted bytes `u64`, with the wrapping addition of a release
build.
-/

namespace SlateFs.Fsck

/-- What can be wrong with an entry (`dirent … in dir …`). -/
inductive DirentFault where
  | parentMissing
  | parentNotDir
  | direntIdBeyondNext
  | danglingChild (ino : Ino)
  | kindMismatch
  | parentDirMismatch
  | missingIndex
  | indexDisagrees
  | otherName
  | nameFailsToDecrypt
  deriving DecidableEq, Repr

/-- What can be wrong with an inode record (`inode …`). -/
inductive InodeFault where
  | multipleDirents
  | dirNlink (nlink expected : UInt32)
  | unreachableDir
  | nlink (nlink links : UInt32)
  | symlinkWithoutTarget
  | chunkOversize (idx len : Nat)
  | billedBytes (stored recomputed : UInt64)
  | unreachable
  deriving DecidableEq, Repr

/-- A structural violation. -/
inductive Problem where
  | rootMissing
  | rootNotDir
  | rootParentDir
  | dirent (parent : Ino) (name : Bytes) (fault : DirentFault)
  | indexWithoutDirent (parent : Ino) (direntId : Nat)
  | inode (ino : Ino) (fault : InodeFault)
  | chunksForUnknownInode (ino : Ino)
  deriving DecidableEq, Repr

/-- A crash leftover that reaping will clear. -/
inductive Reapable where
  | awaitingChunkReap (ino : Ino)
  | orphanMarker (ino : Ino)
  deriving DecidableEq, Repr

structure FsckReport where
  problems : List Problem
  reapable : List Reapable
  inodesCounted : Int64
  bytesCounted : Int64
  counterInodes : Int64
  counterBytes : Int64

def FsckReport.countersMatch (r : FsckReport) : Bool :=
  r.inodesCounted = r.counterInodes && r.bytesCounted = r.counterBytes

def FsckReport.isClean (r : FsckReport) : Bool := r.problems.isEmpty && r.countersMatch

/-! ## Root and entries -/

variable (db : Db)

def rootProblems : List Problem :=
  match db.inodes.get? ROOT_INO with
  | none => [.rootMissing]
  | some root =>
    (if root.kind.isDir then [] else [.rootNotDir])
    ++ (if root.parentDir = ROOT_INO then [] else [.rootParentDir])

/-- The directory that holds an entry. -/
def holderFaults (parent : Ino) (d : Dirent) : List DirentFault :=
  match db.inodes.get? parent with
  | none => [.parentMissing]
  | some p =>
    if !p.kind.isDir then [.parentNotDir]
    else if p.nextDirentId ≤ d.direntId then [.direntIdBeyondNext]
    else []

/-- The inode an entry names. -/
def childFaults (parent : Ino) (d : Dirent) : List DirentFault :=
  match db.inodes.get? d.childIno with
  | none => [.danglingChild d.childIno]
  | some c =>
    (if c.kind = d.kind then [] else [.kindMismatch])
    ++ (if c.kind.isDir && c.parentDir ≠ parent then [.parentDirMismatch] else [])

/-- The index record of an entry. -/
def indexFaults (parent : Ino) (encName : Bytes) (d : Dirent) : List DirentFault :=
  match db.direntIdxs.get? (toLex (parent, d.direntId)) with
  | none => [.missingIndex]
  | some e =>
    if e.encName ≠ encName ∨ e.childIno ≠ d.childIno ∨ e.kind ≠ d.kind then [.indexDisagrees]
    else []

/-- The two copies of an entry's name. -/
def nameFaults (names : NameCodec) (parent : Ino) (encName : Bytes) (d : Dirent) :
    List DirentFault :=
  match names.openName parent encName with
  | some name => if name = d.name then [] else [.otherName]
  | none => [.nameFailsToDecrypt]

def direntFaults (names : NameCodec) (parent : Ino) (encName : Bytes) (d : Dirent) :
    List DirentFault :=
  holderFaults db parent d ++ childFaults db parent d ++ indexFaults db parent encName d
    ++ nameFaults names parent encName d

def direntProblems (names : NameCodec) : List Problem :=
  db.dirents.entries.flatMap (fun e =>
    (direntFaults db names (ofLex e.1).1 (ofLex e.1).2 e.2).map
      (.dirent (ofLex e.1).1 e.2.name))

/-- Index records no entry has the id of. -/
def indexProblems : List Problem :=
  (db.direntIdxs.entries.filter (fun x =>
      !db.dirents.entries.any (fun e =>
        (ofLex e.1).1 = (ofLex x.1).1 && e.2.direntId = (ofLex x.1).2))).map
    (fun x => .indexWithoutDirent (ofLex x.1).1 (ofLex x.1).2)

/-! ## What the entries add up to -/

/-- `*map.entry(k).or_insert(0) += 1` -/
def bump (m : OrdMap Ino UInt32) (k : Ino) : OrdMap Ino UInt32 :=
  m.insert k ((m.get? k).getD 0 + 1)

/-- What the pass over the entries collects. -/
structure Tally where
  linkCounts : OrdMap Ino UInt32
  childDirs : OrdMap Ino UInt32
  children : OrdMap Ino (List Ino)

/-- One entry's share. -/
def Tally.dirent (db : Db) (t : Tally) (parent : Ino) (d : Dirent) : Tally where
  linkCounts := bump t.linkCounts d.childIno
  childDirs :=
    match db.inodes.get? d.childIno with
    | some c => if c.kind.isDir then bump t.childDirs parent else t.childDirs
    | none => t.childDirs
  children := t.children.insert parent ((t.children.get? parent).getD [] ++ [d.childIno])

def tally : Tally :=
  db.dirents.entries.foldl (fun t e => t.dirent db (ofLex e.1).1 e.2) ⟨∅, ∅, ∅⟩

/-! ## Inodes -/

/-- The chunks of an inode: index and length. -/
def chunksOf (ino : Ino) : List (Nat × Nat) :=
  (db.chunks.scan (fun k => (ofLex k).1 = ino)).map (fun e => ((ofLex e.1).2, e.2.length))

/-- What an inode is billed for its chunks, summed up as `u64`. -/
def billed (cs : Nat) (ino : Ino) (inode : Inode) : UInt64 :=
  ((chunksOf db ino).map (fun c =>
    UInt64.ofNat (billedChunkBytes inode.size (c.1 * cs % 2 ^ 64) c.2))).sum

def linkFaults (t : Tally) (ino : Ino) (inode : Inode) : List InodeFault :=
  let links := (t.linkCounts.get? ino).getD 0
  if inode.kind.isDir then
    let expected := 2 + (t.childDirs.get? ino).getD 0
    (if 1 < links then [.multipleDirents] else [])
    ++ (if inode.nlink = expected then [] else [.dirNlink inode.nlink expected])
    ++ (if ino ≠ ROOT_INO ∧ links = 0 then [.unreachableDir] else [])
  else
    (if inode.nlink ≠ links then
      -- unlinked but open
      if inode.nlink = 0 ∧ (db.orphans.get? ino).isSome then []
      else [.nlink inode.nlink links]
    else [])
    ++ (if inode.kind = .symlink ∧ db.symlinks.get? ino = none then [.symlinkWithoutTarget]
      else [])

def billFaults (cs : Nat) (ino : Ino) (inode : Inode) : List InodeFault :=
  ((chunksOf db ino).filter (fun c => cs < c.2)).map (fun c => .chunkOversize c.1 c.2)
  ++ (if billed db cs ino inode = inode.billedBytes then []
    else [.billedBytes inode.billedBytes (billed db cs ino inode)])

def inodeProblems (cs : Nat) : List Problem :=
  db.inodes.entries.flatMap (fun e =>
    (linkFaults db (tally db) e.1 e.2 ++ billFaults db cs e.1 e.2).map (.inode e.1))

/-- The inodes some chunk belongs to. -/
def chunkOwners : List Ino := (db.chunks.entries.map (fun e => (ofLex e.1).1)).dedup

def chunkProblems : List Problem :=
  ((chunkOwners db).filter (fun ino =>
      (db.inodes.get? ino).isNone && (db.orphans.get? ino).isNone)).map .chunksForUnknownInode

def reapables : List Reapable :=
  ((chunkOwners db).filter (fun ino =>
      (db.inodes.get? ino).isNone && (db.orphans.get? ino).isSome)).map .awaitingChunkReap
  ++ db.orphans.entries.map (fun e => .orphanMarker e.1)

/-! ## Reachability -/

def isDirIno (ino : Ino) : Bool := (db.inodes.get? ino).any (fun i => i.kind.isDir)

/-- Breadth-first from the root over the children of each directory. -/
def reachable : List Ino :=
  Worklist.flood (fun dir => ((tally db).children.get? dir).getD []) (isDirIno db)
    (db.inodes.entries.length + 1) [ROOT_INO] [ROOT_INO]

def unreachableProblems : List Problem :=
  (db.inodes.entries.filter (fun e =>
      !(e.1 ∈ reachable db) && !(e.2.nlink = 0 && (db.orphans.get? e.1).isSome))).map
    (fun e => .inode e.1 .unreachable)

/-! ## The report -/

/-- Verify the volume. -/
def check (db : Db) (chunkSize : Nat) (names : NameCodec) : FsckReport where
  problems := rootProblems db ++ direntProblems db names ++ indexProblems db
    ++ inodeProblems db chunkSize ++ chunkProblems db ++ unreachableProblems db
  reapable := reapables db
  inodesCounted := Int64.ofNat db.inodes.entries.length
  bytesCounted := (db.inodes.entries.map (fun e => (billed db chunkSize e.1 e.2).toInt64)).sum
  counterInodes := db.quotaInodes
  counterBytes := db.quotaBytes

/-- Rewrite the quota counters from a recount. -/
def recount (chunkSize : Nat) (names : NameCodec) : FsckReport × Db :=
  let report := check db chunkSize names
  if report.countersMatch then (report, db)
  else (report, { db with
    quotaBytes := report.bytesCounted
    quotaInodes := report.inodesCounted })

end SlateFs.Fsck
