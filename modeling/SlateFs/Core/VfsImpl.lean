import SlateFs.Core.Data

/-!
# The Vfs operations

`vfs_impl.rs`, one program per operation. The batch an operation commits is
built by a function of its own, so that what is read, what is written and what
happens afterwards can be looked at one at a time.

The retry loops, the ancestor walk of rename and the reaper take fuel.
-/

namespace SlateFs

open FsM

/-! ## Loading -/

def loadInode (ino : Ino) : FsM Inode := do
  match ← dbGet (.inode ino) with
  | some i => pure i
  | none => fail .stale

def loadDir (ino : Ino) : FsM Inode := do
  let i ← loadInode ino
  if i.kind.isDir then pure i else fail .notDir

/-- Read-path inode fetch through the attribute cache. -/
def loadInodeCached (ino : Ino) : FsM Inode := do
  match ← attrsGet ino with
  | some i => pure i
  | none =>
    let i ← loadInode ino
    attrsInsert ino i
    pure i

def loadDirCached (ino : Ino) : FsM Inode := do
  let i ← loadInodeCached ino
  if i.kind.isDir then pure i else fail .notDir

variable (fuel : Nat) (v : Volume) (creds : Credentials)

def direntOf (parent : Ino) (name : Bytes) : FsM (Option Dirent) :=
  dbGet (.dirent parent (v.names.sealName parent name))

/-! ## Creating nodes -/

/-- Allocate an inode number, recording a new lease when one is needed. -/
def allocIno : FsM Ino := do
  let (ino, renew) ← allocate
  match renew with
  | some leaseEnd => putNextIno leaseEnd
  | none => pure ()
  pure ino

/-- The parent directory once a new entry is in it. -/
def parentWithChild (parent child : Inode) (ts : Timespec) : Inode :=
  let p := { parent with nextDirentId := nextId parent.nextDirentId }.touchMtime ts
  if child.kind.isDir then { p with nlink := p.nlink + 1 } else p

def insertNodeBatch (parentIno : Ino) (parent : Inode) (name : Bytes) (childIno : Ino)
    (child : Inode) (symlinkTarget : Option Bytes) (ts : Timespec) : Batch :=
  let enc := v.names.sealName parentIno name
  [.put (.inode childIno) child,
    .put (.dirent parentIno enc)
      (Dirent.mk name childIno child.kind parent.nextDirentId),
    .put (.direntIdx parentIno parent.nextDirentId) (DirentIdx.mk enc childIno child.kind),
    .put (.inode parentIno) (parentWithChild parent child ts)]
  ++ (match symlinkTarget with
      | some target => [.put (.symlink childIno) target]
      | none => [])
  ++ [.mergeInodes 1]

/-- Shared entry-creation path. The caller holds the parent lock and found the name free. -/
def insertNewNode (parentIno : Ino) (parent : Inode) (name : Bytes) (childIno : Ino) (child : Inode)
    (symlinkTarget : Option Bytes) : FsM Unit := do
  reserve 0 1
  let ts ← now
  match ← tryCommit
    (insertNodeBatch v parentIno parent name childIno child symlinkTarget ts) with
  | .error _ =>
    releaseQuota 0 1
    fail .io
  | .ok _ =>
    attrsInsert childIno child
    attrsInsert parentIno (parentWithChild parent child ts)
    removeNegative parentIno name

/-- The part create, mkdir, mknod and symlink share: allocate, build the child, insert it. -/
def makeNode (parent : Ino) (dir : Inode) (name : Bytes) (mk : Timespec → Inode)
    (symlinkTarget : Option Bytes) : FsM FileAttr := do
  let childIno ← allocIno
  let ts ← now
  let child := mk ts
  insertNewNode v parent dir name childIno child symlinkTarget
  pure (makeAttr childIno child)

def create (parent : Ino) (name : Bytes) (mode : UInt32) (exclusive : Bool) : FsM FileAttr := do
  ofExcept (validateName name)
  withGuards (writeMany [parent]) do
    let dir ← loadDir parent
    ofExcept (access creds dir (ACCESS_W ||| ACCESS_X))
    match ← direntOf v parent name with
    | some existing =>
      if exclusive then fail .exists
      else
        let i ← loadInode existing.childIno
        if i.kind.isDir then fail .isDir
        else
          ofExcept (access creds i ACCESS_W)
          pure (makeAttr existing.childIno i)
    | none =>
      let (uid, gid, mode) := newNodeIds creds dir .file mode
      makeNode v parent dir name (fun ts => Inode.new .file mode uid gid ts) none

def mkdir (parent : Ino) (name : Bytes) (mode : UInt32) :
    FsM FileAttr := do
  ofExcept (validateName name)
  withGuards (writeMany [parent]) do
    let dir ← loadDir parent
    ofExcept (access creds dir (ACCESS_W ||| ACCESS_X))
    match ← direntOf v parent name with
    | some _ => fail .exists
    | none =>
      let (uid, gid, mode) := newNodeIds creds dir .dir mode
      makeNode v parent dir name
        (fun ts => { Inode.new .dir mode uid gid ts with parentDir := parent }) none

/-- Which kinds mknod makes, and who may make devices. -/
def mknodAllowed : FileKind → Except FsError Unit
  | .fifo | .socket | .file => .ok ()
  | .charDev | .blockDev => if creds.isRoot then .ok () else .error .notPermitted
  | .dir | .symlink => .error .invalid

def mknod (parent : Ino) (name : Bytes) (mode : UInt32) (kind : FileKind) (rdev : Nat) :
    FsM FileAttr := do
  ofExcept (validateName name)
  ofExcept (mknodAllowed creds kind)
  withGuards (writeMany [parent]) do
    let dir ← loadDir parent
    ofExcept (access creds dir (ACCESS_W ||| ACCESS_X))
    match ← direntOf v parent name with
    | some _ => fail .exists
    | none =>
      let (uid, gid, mode) := newNodeIds creds dir kind mode
      makeNode v parent dir name
        (fun ts => { Inode.new kind mode uid gid ts with rdev := rdev }) none

def symlink (parent : Ino) (name target : Bytes) :
    FsM FileAttr := do
  ofExcept (validateName name)
  if target = [] ∨ 4096 < target.length then fail .invalid
  else
    withGuards (writeMany [parent]) do
      let dir ← loadDir parent
      ofExcept (access creds dir (ACCESS_W ||| ACCESS_X))
      match ← direntOf v parent name with
      | some _ => fail .exists
      | none =>
        let (uid, gid, _) := newNodeIds creds dir .symlink 0o777
        makeNode v parent dir name
          (fun ts => { Inode.new .symlink 0o777 uid gid ts with size := target.length })
          (some target)

/-! ## Linking -/

/-- `nlink.checked_add(1)` -/
def nlinkSucc (n : UInt32) : Except FsError UInt32 :=
  if n.toNat + 1 < 2 ^ 32 then .ok (n + 1) else .error .tooManyLinks

/-- A directory that hands out one more dirent id. -/
def dirWithEntry (dir : Inode) (ts : Timespec) : Inode :=
  { dir with nextDirentId := nextId dir.nextDirentId }.touchMtime ts

def linkBatch (ino : Ino) (i : Inode) (newParent : Ino) (dir : Inode) (newName : Bytes)
    (ts : Timespec) : Batch :=
  let enc := v.names.sealName newParent newName
  [.put (.inode ino) i,
    .put (.dirent newParent enc) (Dirent.mk newName ino i.kind dir.nextDirentId),
    .put (.direntIdx newParent dir.nextDirentId) (DirentIdx.mk enc ino i.kind),
    .put (.inode newParent) (dirWithEntry dir ts)]

def link (ino : Ino) (newParent : Ino) (newName : Bytes) :
    FsM FileAttr := do
  ofExcept (validateName newName)
  withGuards (writeMany [ino, newParent]) do
    let i ← loadInode ino
    if i.kind.isDir then fail .notPermitted
    else
      let dir ← loadDir newParent
      ofExcept (access creds dir (ACCESS_W ||| ACCESS_X))
      match ← direntOf v newParent newName with
      | some _ => fail .exists
      | none =>
        let ts ← now
        let nlink ← ofExcept (nlinkSucc i.nlink)
        let i' := { i with nlink := nlink, ctime := ts }
        commit (linkBatch v ino i' newParent dir newName ts)
        attrsInsert ino i'
        attrsInsert newParent (dirWithEntry dir ts)
        removeNegative newParent newName
        pure (makeAttr ino i')

/-! ## Orphans -/

def REAP_BATCH : Nat := 1024

/-- Delete a dead inode's chunks, in bounded batches. -/
def reapChunks (ino : Ino) : Nat → FsM Unit
  | 0 => stuck
  | fuel + 1 => do
      let kvs ← scanChunks ino 0
      let victims := kvs.take REAP_BATCH
      if victims.length = 0 then pure ()
      else
        commit (victims.map (fun kv => .delete (.chunk ino kv.1)))
        if victims.length < REAP_BATCH then pure () else reapChunks ino fuel

/-- The reaper's last batch: attributes, link target, and the marker itself. -/
def reapBatch (ino : Ino) (xattrs : List (Bytes × Bytes)) : Batch :=
  xattrs.map (fun kv => .delete (.xattr ino kv.1))
    ++ [.delete (.symlink ino), .delete (.orphan ino)]

def reapOrphanData (ino : Ino) : FsM Unit := do
  reapChunks ino fuel
  let xattrs ← scanXattrs ino
  commit (reapBatch ino xattrs)

/-- What a buried inode leaves for the caller. -/
structure Burial where
  writes : Batch
  /-- The caller must reap chunk data after the commit. -/
  reap : Bool
  bytes : Int64
  inodes : Int64

/-- Writes for an inode that nobody holds open: it goes at once. -/
def buryGone (ino : Ino) (i : Inode) : Batch :=
  [.put (.orphan ino) (Orphan.mk i.size i.kind), .delete (.inode ino),
    .mergeBytes (-i.billedBytes.toInt64), .mergeInodes (-1)]

/-- Writes for an inode that is still open: it stays, with no links. -/
def buryOpen (ino : Ino) (i : Inode) (ts : Timespec) : Batch :=
  [.put (.orphan ino) (Orphan.mk i.size i.kind),
    .put (.inode ino) { i with nlink := 0, ctime := ts }]

/-- Record the death of a file inode whose nlink hit zero. -/
def buryInode (ino : Ino) (i : Inode) : FsM Burial := do
  if ← handlesIsOpen ino then
    let ts ← now
    pure ⟨buryOpen ino i ts, false, 0, 0⟩
  else
    pure ⟨buryGone ino i, true, -i.billedBytes.toInt64, -1⟩

/-- Drop a dead inode's record and settle its quota in the store. -/
def finishBatch (ino : Ino) (i : Inode) : Batch :=
  [.delete (.inode ino), .mergeBytes (-i.billedBytes.toInt64), .mergeInodes (-1)]

/-- Finish an orphan whose last handle closed. -/
def finishOrphan (ino : Ino) : FsM Unit := do
  match ← dbGet (.inode ino) with
  | some i =>
    commit (finishBatch ino i)
    reserve (-i.billedBytes.toInt64) (-1)
  | none => pure ()
  attrsRemove ino
  reapOrphanData fuel ino

/-! ## Unlinking -/

/-- The writes that take one name out of a directory. -/
def dropEntry (parent : Ino) (name : Bytes) (direntId : Nat) : Batch :=
  [.delete (.dirent parent (v.names.sealName parent name)), .delete (.direntIdx parent direntId)]

/-- One link fewer: the inode is rewritten, or buried when that was the last one. -/
def dropLink (ino : Ino) (i : Inode) (ts : Timespec) : FsM Burial :=
  let i' := { i with nlink := i.nlink - 1 }
  if i'.nlink = 0 then buryInode ino i'
  else pure ⟨[.put (.inode ino) { i' with ctime := ts }], false, 0, 0⟩

/-- Commit an unlink, then bring caches and quota up to date and reap. -/
def unlinkCommit (parent : Ino) (dir : Inode) (name : Bytes) (d : Dirent) (b : Burial) :
    FsM Unit := do
  commit (dropEntry v parent name d.direntId ++ [.put (.inode parent) dir] ++ b.writes)
  attrsInsert parent dir
  attrsRemove d.childIno
  insertNegative parent name
  reserveQuiet b.bytes b.inodes
  if b.reap then reapOrphanData fuel d.childIno else pure ()

/-- The body of unlink under its locks. True asks for another round. -/
def unlinkLocked (parent : Ino) (name : Bytes) (d : Dirent) : FsM Bool := do
  match ← direntOf v parent name with
  | none => fail .notFound
  | some d2 =>
    if d2.childIno ≠ d.childIno ∨ d2.direntId ≠ d.direntId then pure true
    else
      let dir ← loadDir parent
      ofExcept (access creds dir (ACCESS_W ||| ACCESS_X))
      let child ← mapErr .io (loadInode d.childIno)
      if child.kind.isDir then fail .isDir
      else
        ofExcept (checkSticky creds dir child)
        let ts ← now
        let b ← dropLink d.childIno child ts
        unlinkCommit fuel v parent (dir.touchMtime ts) name d b
        pure false

/--
The retry loop of unlink and rmdir: look the name up, lock its directory and its
node, and run the locked body, which reads the entry again.
-/
def removeLoop (v : Volume) (parent : Ino) (name : Bytes) (locked : Nat → Dirent → FsM Bool) :
    Nat → FsM Unit
  | 0 => stuck
  | fuel + 1 => do
      match ← direntOf v parent name with
      | none => fail .notFound
      | some d =>
        let again ← withGuards (writeMany [parent, d.childIno]) (locked fuel d)
        if again then removeLoop v parent name locked fuel else pure ()

def unlink (parent : Ino) (name : Bytes) :
    FsM Unit := do
  ofExcept (validateName name)
  removeLoop v parent name (fun fuel d => unlinkLocked fuel v creds parent name d) fuel

/-! ## Removing directories -/

def rmdirBatch (parent : Ino) (dir : Inode) (name : Bytes) (d : Dirent)
    (xattrs : List (Bytes × Bytes)) (ts : Timespec) : Batch :=
  dropEntry v parent name d.direntId ++ [.delete (.inode d.childIno)]
    ++ xattrs.map (fun kv => .delete (.xattr d.childIno kv.1))
    ++ [.put (.inode parent) { dir.touchMtime ts with nlink := dir.nlink - 1 }, .mergeInodes (-1)]

def rmdirLocked (parent : Ino) (name : Bytes) (d : Dirent) :
    FsM Bool := do
  match ← direntOf v parent name with
  | none => fail .notFound
  | some d2 =>
    if d2.childIno ≠ d.childIno ∨ d2.direntId ≠ d.direntId then pure true
    else
      let dir ← loadDir parent
      ofExcept (access creds dir (ACCESS_W ||| ACCESS_X))
      let child ← mapErr .io (loadInode d.childIno)
      if ¬child.kind.isDir then fail .notDir
      else
        ofExcept (checkSticky creds dir child)
        let entries ← scanDirents d.childIno
        if entries ≠ [] then fail .notEmpty
        else
          let ts ← now
          let xattrs ← scanXattrs d.childIno
          commit (rmdirBatch v parent dir name d xattrs ts)
          attrsInsert parent { dir.touchMtime ts with nlink := dir.nlink - 1 }
          attrsRemove d.childIno
          insertNegative parent name
          reserveQuiet 0 (-1)
          pure false

def rmdir (parent : Ino) (name : Bytes) :
    FsM Unit := do
  ofExcept (validateName name)
  removeLoop v parent name (fun _ d => rmdirLocked v creds parent name d) fuel

/-! ## Renaming -/

/-- The cycle check: walk `parent_dir` from the new parent to the root. -/
def ancestorWalk (moved : Ino) : Nat → Ino → FsM Unit
  | 0, _ => stuck
  | fuel + 1, cursor =>
    if cursor = moved then fail .invalid
    else if cursor = ROOT_INO then pure ()
    else do
      let i ← mapErr .io (loadInode cursor)
      ancestorWalk moved fuel i.parentDir

/-- What replacing the target leaves for the rest of rename. -/
structure Replaced where
  writes : Batch
  newDir : Inode
  reap : Option Ino
  bytes : Int64
  inodes : Int64

/-- The replaced target of a rename, if there is one. -/
def replaceTarget (newParent : Ino) (newName : Bytes) (newDir moved : Inode) (ts : Timespec) :
    Option Dirent → FsM Replaced
  | none => pure ⟨[], newDir, none, 0, 0⟩
  | some dstd => do
      let target ← mapErr .io (loadInode dstd.childIno)
      ofExcept (checkSticky creds newDir target)
      match moved.kind.isDir, target.kind.isDir with
      | true, false => fail .notDir
      | false, true => fail .isDir
      | true, true =>
        let entries ← scanDirents dstd.childIno
        if entries ≠ [] then fail .notEmpty
        else
          pure ⟨[.delete (.inode dstd.childIno), .mergeInodes (-1)]
              ++ dropEntry v newParent newName dstd.direntId,
            { newDir with nlink := newDir.nlink - 1 }, none, 0, -1⟩
      | false, false =>
        let b ← dropLink dstd.childIno target ts
        pure ⟨b.writes ++ dropEntry v newParent newName dstd.direntId, newDir,
          if b.reap then some dstd.childIno else none, b.bytes, b.inodes⟩

/-- The moved node as it is written back. -/
def movedNode (moved : Inode) (crossing : Bool) (newParent : Ino) (ts : Timespec) : Inode :=
  { moved with
    parentDir := if crossing then newParent else moved.parentDir
    ctime := ts }

/-- The source directory as it is written back. -/
def oldDirAfter (oldDir : Inode) (crossing : Bool) (ts : Timespec) : Inode :=
  { oldDir with nlink := if crossing then oldDir.nlink - 1 else oldDir.nlink }.touchMtime ts

/-- The destination directory as it is written back. -/
def newDirAfter (newDir : Inode) (crossing : Bool) (ts : Timespec) : Inode :=
  { newDir with
    nextDirentId := nextId newDir.nextDirentId
    nlink := if crossing then newDir.nlink + 1 else newDir.nlink }.touchMtime ts

/--
The writes of a rename. `crossing` says that a directory changes its parent, so
link counts and `parent_dir` move with it.
-/
def renameBatch (oldParent : Ino) (oldName : Bytes) (newParent : Ino) (newName : Bytes)
    (src : Dirent) (oldDir moved : Inode) (rep : Replaced) (crossing : Bool) (ts : Timespec) :
    Batch :=
  let enc := v.names.sealName newParent newName
  rep.writes
  ++ dropEntry v oldParent oldName src.direntId
  ++ [.put (.dirent newParent enc)
        (Dirent.mk newName src.childIno moved.kind rep.newDir.nextDirentId),
      .put (.direntIdx newParent rep.newDir.nextDirentId)
        (DirentIdx.mk enc src.childIno moved.kind),
      .put (.inode src.childIno) (movedNode moved crossing newParent ts)]
  ++ (if oldParent = newParent then []
      else [.put (.inode oldParent) (oldDirAfter oldDir crossing ts)])
  ++ [.put (.inode newParent) (newDirAfter rep.newDir crossing ts)]

/-- Commit a rename, then bring caches and quota up to date and reap. -/
def renameCommit (oldParent : Ino) (oldName : Bytes) (newParent : Ino) (newName : Bytes)
    (src : Dirent) (dst : Option Dirent) (oldDir moved : Inode) (rep : Replaced) (crossing : Bool)
    (ts : Timespec) : FsM Unit := do
  commit (renameBatch v oldParent oldName newParent newName src oldDir moved rep crossing ts)
  attrsInsert src.childIno (movedNode moved crossing newParent ts)
  if oldParent ≠ newParent then attrsInsert oldParent (oldDirAfter oldDir crossing ts)
  else pure ()
  attrsInsert newParent (newDirAfter rep.newDir crossing ts)
  match dst with
  | some dstd => attrsRemove dstd.childIno
  | none => pure ()
  insertNegative oldParent oldName
  removeNegative newParent newName
  reserveQuiet rep.bytes rep.inodes
  match rep.reap with
  | some ino => reapOrphanData fuel ino
  | none => pure ()

/-- What identifies an entry when it is read again under the locks. -/
def entryId (d : Option Dirent) : Option (Ino × Nat) := d.map (fun d => (d.childIno, d.direntId))

/-- The body of rename under its locks. True asks for another round. -/
def renameLocked (oldParent : Ino) (oldName : Bytes) (newParent : Ino) (newName : Bytes)
    (src : Dirent) (dst : Option Dirent) :
    FsM Bool := do
  let src2 ← direntOf v oldParent oldName
  let dst2 ← direntOf v newParent newName
  if entryId src2 ≠ entryId (some src) ∨ entryId dst2 ≠ entryId dst then pure true
  else if dst.map Dirent.childIno = some src.childIno then pure false
  else if oldParent = newParent ∧ oldName = newName then pure false
  else
    let oldDir ← loadDir oldParent
    ofExcept (access creds oldDir (ACCESS_W ||| ACCESS_X))
    let newDir ←
      if oldParent = newParent then pure oldDir
      else
        let d ← loadDir newParent
        ofExcept (access creds d (ACCESS_W ||| ACCESS_X))
        pure d
    let moved ← mapErr .io (loadInode src.childIno)
    ofExcept (checkSticky creds oldDir moved)
    let crossing := moved.kind.isDir && oldParent ≠ newParent
    if crossing then ofExcept (access creds moved ACCESS_W) else pure ()
    if crossing then ancestorWalk src.childIno fuel newParent else pure ()
    let ts ← now
    let rep ← replaceTarget v creds newParent newName newDir moved ts dst
    renameCommit fuel v oldParent oldName newParent newName src dst oldDir moved rep crossing ts
    pure false

def renameLoop (v : Volume) (creds : Credentials) (oldParent : Ino) (oldName : Bytes)
    (newParent : Ino) (newName : Bytes) : Nat → FsM Unit
  | 0 => stuck
  | fuel + 1 => do
      match ← direntOf v oldParent oldName with
      | none => fail .notFound
      | some src =>
        let dst ← direntOf v newParent newName
        let again ← withGuards
          (writeMany ([oldParent, newParent, src.childIno]
            ++ (match dst with | some d => [d.childIno] | none => [])))
          (renameLocked fuel v creds oldParent oldName newParent newName src dst)
        if again then renameLoop v creds oldParent oldName newParent newName fuel else pure ()

def rename (oldParent : Ino) (oldName : Bytes) (newParent : Ino) (newName : Bytes) : FsM Unit := do
  ofExcept (validateName oldName)
  ofExcept (validateName newName)
  withGuards [.rename] (renameLoop v creds oldParent oldName newParent newName fuel)

/-! ## Attributes and contents -/

/-- chmod part of setattr. -/
def setMode (isOwner : Bool) (i : Inode) :
    Option UInt32 → Except FsError Inode
  | none => .ok i
  | some mode =>
    if ¬creds.isPrivileged ∧ ¬isOwner then .error .notPermitted
    else
      let mode := mode &&& 0o7777
      let mode := if ¬creds.isPrivileged ∧ ¬creds.inGroup i.gid then mode &&& ~~~0o2000 else mode
      .ok { i with mode := mode }

/-- chown part of setattr. -/
def setUid (isOwner : Bool) (i : Inode) :
    Option UInt32 → Except FsError Inode
  | none => .ok i
  | some uid =>
    if creds.isPrivileged ∨ (isOwner ∧ uid = i.uid) then .ok { i with uid := uid }
    else .error .notPermitted

/-- chgrp part of setattr. -/
def setGid (isOwner : Bool) (i : Inode) :
    Option UInt32 → Except FsError Inode
  | none => .ok i
  | some gid =>
    if ¬creds.isPrivileged ∧ ¬(isOwner ∧ (gid = i.gid ∨ creds.inGroup gid)) then
      .error .notPermitted
    else
      let mode := if ¬creds.isRoot ∧ gid ≠ i.gid then i.mode &&& ~~~0o6000 else i.mode
      .ok { i with mode := mode, gid := gid }

/-- The time a utimes slot asks for, and whether the caller may set it. -/
def timeSlot (isOwner : Bool) (i : Inode) (ts : Timespec) :
    TimeSet → Except FsError Timespec
  | .now =>
    if ¬creds.isPrivileged ∧ ¬isOwner then (access creds i ACCESS_W).map (fun _ => ts)
    else .ok ts
  | .time t => if ¬creds.isPrivileged ∧ ¬isOwner then .error .notPermitted else .ok t

def setAtime (isOwner : Bool) (i : Inode) (ts : Timespec) :
    Option TimeSet → Except FsError Inode
  | none => .ok i
  | some slot => (timeSlot creds isOwner i ts slot).map (fun t => { i with atime := t })

def setMtime (isOwner : Bool) (i : Inode) (ts : Timespec) :
    Option TimeSet → Except FsError Inode
  | none => .ok i
  | some slot => (timeSlot creds isOwner i ts slot).map (fun t => { i with mtime := t })

/-- The permission gates of setattr, applied in order before anything is planned. -/
def applyAttrs (i : Inode) (ts : Timespec) (attrs : SetAttrs) :
    Except FsError Inode := do
  let isOwner : Bool := creds.uid = i.uid
  let i ← setMode creds isOwner i attrs.mode
  let i ← setUid creds isOwner i attrs.uid
  let i ← setGid creds isOwner i attrs.gid
  let i ← setAtime creds isOwner i ts attrs.atime
  setMtime creds isOwner i ts attrs.mtime

/-- `(billed_bytes as i64 + delta) as u64` -/
def billedAfter (billed : UInt64) (delta : Int64) : UInt64 := (billed.toInt64 + delta).toUInt64

def INLINE_DELETES : Nat := 1024

/-- The write of a trimmed tail chunk. -/
def tailWrite (ino : Ino) : Option (Nat × Bytes) → Batch
  | some (idx, bytes) => [.put (.chunk ino idx) bytes]
  | none => []

/-- The writes of the size part of setattr, without the inode itself. -/
def truncateBatch (ino : Ino) (plan : TruncatePlan) : Batch :=
  tailWrite ino plan.tailPut
  ++ (plan.deletes.take INLINE_DELETES).map (fun idx => .delete (.chunk ino idx))
  ++ (if plan.billedDelta ≠ 0 then [.mergeBytes plan.billedDelta] else [])

/-- What the size part of setattr leaves for the rest. -/
structure Resized where
  inode : Inode
  writes : Batch
  quotaDelta : Int64
  spill : List Nat

/-- The size part of setattr. -/
def resize (ino : Ino) (i : Inode) (ts : Timespec) :
    Option Nat → FsM Resized
  | none => pure ⟨i, [], 0, []⟩
  | some newSize =>
    match i.kind with
    | .file => do
        ofExcept (access creds i ACCESS_W)
        if newSize = i.size then pure ⟨i, [], 0, []⟩
        else
          let plan ← planTruncate v.chunkSize ino i.size newSize
          reserve plan.billedDelta 0
          pure ⟨{ i with
              size := newSize
              billedBytes := billedAfter i.billedBytes plan.billedDelta
              mtime := ts },
            truncateBatch ino plan, plan.billedDelta, plan.deletes.drop INLINE_DELETES⟩
    | .dir => fail .isDir
    | _ => fail .invalid

/-- Split a list into groups of at most `n`. -/
def groupsOf {β : Type} (n : Nat) : Nat → List β → List (List β)
  | 0, _ => []
  | _, [] => []
  | k + 1, xs => xs.take n :: groupsOf n k (xs.drop n)

/-- The follow-up delete batches of one truncate. -/
def spillDeletes (ino : Ino) : List (List Nat) → FsM Unit
  | [] => pure ()
  | group :: rest => do
      commit (group.map (fun idx => .delete (.chunk ino idx)))
      spillDeletes ino rest

/-- Commit a setattr, then delete the chunks that did not fit its batch. -/
def setattrCommit (ino : Ino) (rs : Resized) (ts : Timespec) : FsM FileAttr := do
  let i' := { rs.inode with ctime := ts }
  match ← tryCommit (rs.writes ++ [.put (.inode ino) i']) with
  | .error _ =>
    releaseQuota rs.quotaDelta 0
    fail .io
  | .ok _ =>
    attrsInsert ino i'
    spillDeletes ino (groupsOf 1024 rs.spill.length rs.spill)
    pure (makeAttr ino i')

def setattr (ino : Ino) (attrs : SetAttrs) : FsM FileAttr :=
  withGuards (writeMany [ino]) do
    let i ← loadInode ino
    let ts ← now
    let i ← ofExcept (applyAttrs creds i ts attrs)
    let rs ← resize v creds ino i ts attrs.size
    setattrCommit ino rs ts

/-- Persist a read's atime update. Errors are dropped. -/
def maybeUpdateAtime (ino : Ino) (i : Inode) (policy : AtimeMode) : FsM Unit := do
  let ts ← now
  if atimeUpdateDue policy i ts then
    withGuards (writeMany [ino]) do
      match ← tryGet (.inode ino) with
      | .ok (some current) =>
        if atimeUpdateDue policy current ts then
          match ← tryCommit [.put (.inode ino) { current with atime := ts }] with
          | .ok _ => attrsInsert ino { current with atime := ts }
          | .error _ => pure ()
        else pure ()
      | _ => pure ()
  else pure ()

/-- Read-ahead only warms a cache. What is left of it is its division by the chunk size. -/
def planReadahead (chunkSize stop size : Nat) : FsM Unit :=
  if stop = 0 ∨ stop ≥ size then pure ()
  else do
    let _ ← chunkOf (stop - 1) chunkSize
    pure ()

def readWithAtimePolicy (ino : Ino) (offset len : Nat) (policy : AtimeMode) : FsM Bytes := do
  let i ← loadInodeCached ino
  match i.kind with
  | .file =>
    ofExcept (access creds i ACCESS_R)
    let bytes ← readRange v.chunkSize ino i.size offset len
    planReadahead v.chunkSize (addU64 offset bytes.length) i.size
    maybeUpdateAtime ino i policy
    pure bytes
  | .dir => fail .isDir
  | _ => fail .invalid

/-- The inode a write leaves behind. -/
def inodeAfterWrite (i : Inode) (plan : WritePlan) (ts : Timespec) : Inode :=
  let i' := { i with
    size := plan.newSize
    billedBytes := billedAfter i.billedBytes plan.billedDelta }.touchMtime ts
  if ¬creds.isRoot ∧ i'.mode &&& 0o6000 ≠ 0 then { i' with mode := i'.mode &&& ~~~0o6000 } else i'

def writeBatch (ino : Ino) (i' : Inode) (plan : WritePlan) : Batch :=
  plan.puts.map (fun p => .put (.chunk ino p.1) p.2)
  ++ [.put (.inode ino) i']
  ++ (if plan.billedDelta ≠ 0 then [.mergeBytes plan.billedDelta] else [])

def write (ino : Ino) (offset : Nat) (data : Bytes) : FsM Nat :=
  if data = [] then pure 0
  else if 2 ^ 64 ≤ offset + data.length then fail .fileTooBig
  else if v.chunkSize * (2 ^ 32 - 1) < offset + data.length then fail .fileTooBig
  else
    withGuards (writeMany [ino]) do
      let i ← loadInode ino
      if i.kind ≠ .file then
        if i.kind.isDir then fail .isDir else fail .invalid
      else
        ofExcept (access creds i ACCESS_W)
        let plan ← planWrite v.chunkSize ino i.size offset data
        reserve plan.billedDelta 0
        let ts ← now
        let i' := inodeAfterWrite creds i plan ts
        match ← tryCommit (writeBatch ino i' plan) with
        | .error _ =>
          releaseQuota plan.billedDelta 0
          fail .io
        | .ok _ =>
          attrsInsert ino i'
          pure data.length

/-! ## Reading names and attributes -/

structure EntryPermissions where
  canRead : Bool
  canWrite : Bool
  canDelete : Bool
  canRename : Bool
  deriving DecidableEq, Repr

def isOk {ε α : Type} : Except ε α → Bool
  | .ok _ => true
  | .error _ => false

def permissions (ino : Ino) (parent : Option (Ino × Bytes)) :
    FsM EntryPermissions := do
  let i ← loadInode ino
  let parentMutation ← match parent with
    | some (parentIno, name) => do
        ofExcept (validateName name)
        let dir ← loadInode parentIno
        pure (isOk (access creds dir (ACCESS_W ||| ACCESS_X)) && isOk (checkSticky creds dir i))
    | none => pure false
  pure ⟨isOk (access creds i ACCESS_R), isOk (access creds i ACCESS_W), parentMutation,
    parentMutation⟩

def lookup (parent : Ino) (name : Bytes) : FsM FileAttr := do
  let dir ← loadDirCached parent
  ofExcept (access creds dir ACCESS_X)
  if name = [46] then pure (makeAttr parent dir)
  else if name = [46, 46] then
    let up ← loadInodeCached dir.parentDir
    pure (makeAttr dir.parentDir up)
  else
    ofExcept (validateName name)
    if ← isNegative parent name then fail .notFound
    else
      match ← direntOf v parent name with
      | some d =>
        let i ← mapErr .notFound (loadInodeCached d.childIno)
        pure (makeAttr d.childIno i)
      | none =>
        insertNegative parent name
        fail .notFound

def getattr (ino : Ino) : FsM FileAttr := do
  let i ← loadInodeCached ino
  pure (makeAttr ino i)

def readlink (ino : Ino) : FsM Bytes := do
  let i ← loadInode ino
  if i.kind ≠ .symlink then fail .invalid
  else
    match ← dbGet (.symlink ino) with
    | some target => pure target
    | none => fail .io

structure DirEntry where
  name : Bytes
  ino : Ino
  kind : FileKind
  cookie : Nat
  deriving DecidableEq, Repr

/-- Decrypt a page of index records; a name that does not open is an I/O error. -/
def openEntries (v : Volume) (parent : Ino) :
    List (Nat × DirentIdx) → Except FsError (List DirEntry)
  | [] => .ok []
  | (id, idx) :: rest =>
    match v.names.openName parent idx.encName with
    | none => .error .io
    | some name => (openEntries v parent rest).map (⟨name, idx.childIno, idx.kind, id⟩ :: ·)

/-- `cookie.saturating_add(1)` -/
def nextCookie (cookie : Nat) : Nat := min (cookie + 1) (2 ^ 64 - 1)

/-- One page of a directory, and whether it is the last. The scan stops before id `u64::MAX`;
from a cookie of `u64::MAX - 1` on its range is empty, which the store is taken to allow. -/
def readdir (parent : Ino) (cookie maxEntries : Nat) :
    FsM (List DirEntry × Bool) := do
  let dir ← loadDirCached parent
  ofExcept (access creds dir ACCESS_R)
  let kvs ← scanDirentIdxs parent (nextCookie cookie)
  let kvs := kvs.filter (fun kv => kv.1 < 2 ^ 64 - 1)
  let entries ← ofExcept (openEntries v parent (kvs.take maxEntries))
  pure (entries, decide (kvs.length ≤ maxEntries))

def MAX_XATTR_VALUE : Nat := 64 * 1024

def getxattr (ino : Ino) (name : Bytes) : FsM Bytes := do
  if name = [] ∨ MAX_NAME_LEN < name.length then fail .invalid
  else
    let i ← loadInode ino
    ofExcept (access creds i ACCESS_R)
    match ← dbGet (.xattr ino name) with
    | some value => pure value
    | none => fail .noData

def setxattr (ino : Ino) (name value : Bytes) : FsM Unit := do
  if name = [] ∨ MAX_NAME_LEN < name.length ∨ MAX_XATTR_VALUE < value.length then fail .invalid
  else
    checkNotOver
    withGuards (writeMany [ino]) do
      let i ← loadInode ino
      ofExcept (access creds i ACCESS_W)
      let ts ← now
      commit [.put (.xattr ino name) value, .put (.inode ino) { i with ctime := ts }]
      attrsInsert ino { i with ctime := ts }

def listxattr (ino : Ino) : FsM (List Bytes) := do
  let i ← loadInode ino
  ofExcept (access creds i ACCESS_R)
  let kvs ← scanXattrs ino
  pure (kvs.map Prod.fst)

def removexattr (ino : Ino) (name : Bytes) : FsM Unit := do
  if name = [] ∨ MAX_NAME_LEN < name.length then fail .invalid
  else
    withGuards (writeMany [ino]) do
      let i ← loadInode ino
      ofExcept (access creds i ACCESS_W)
      match ← dbGet (.xattr ino name) with
      | none => fail .noData
      | some _ =>
        let ts ← now
        commit [.delete (.xattr ino name), .put (.inode ino) { i with ctime := ts }]
        attrsInsert ino { i with ctime := ts }

def NOMINAL_BYTES : Nat := 2 ^ 60

def NOMINAL_INODES : Nat := 2 ^ 32

def STATFS_BSIZE : Nat := 4096

structure StatFs where
  blockSize : Nat
  totalBytes : Nat
  freeBytes : Nat
  availBytes : Nat
  totalInodes : Nat
  freeInodes : Nat
  deriving DecidableEq, Repr

def statfs : FsM StatFs := do
  let q ← call .quota
  let free := fun (total : Nat) (used : Int64) => total - used.toInt.toNat
  let totalBytes := q.limits.bytes.hard.getD NOMINAL_BYTES
  let totalInodes := q.limits.inodes.hard.getD NOMINAL_INODES
  pure ⟨STATFS_BSIZE, totalBytes, free totalBytes q.bytes, free totalBytes q.bytes, totalInodes,
    free totalInodes q.inodes⟩

def fsync : FsM Unit := flush

/-! ## Handles -/

/-- What an open mode asks of the inode. -/
def wantedAccess : OpenMode → UInt32
  | .read => ACCESS_R
  | .write => ACCESS_W
  | .readWrite => ACCESS_R ||| ACCESS_W

def openFile (ino : Ino) (mode : OpenMode) : FsM Nat := do
  let i ← loadInode ino
  ofExcept (access creds i (wantedAccess mode))
  handlesOpen ino mode

def closeFile (handle : Nat) : FsM Unit := do
  match ← handlesClose handle with
  | none => fail .badHandle
  | some (ino, _, last) =>
    unlockOwner handle
    if last then
      match ← dbGet (.orphan ino) with
      | some _ => withGuards (writeMany [ino]) (finishOrphan fuel ino)
      | none => pure ()
    else pure ()

def lockRange (handle start stop : Nat) (exclusive : Bool) : FsM Unit := do
  if start ≥ stop then fail .invalid
  else
    match ← handlesGet handle with
    | none => fail .badHandle
    | some (ino, _) =>
      let r ← call (.rangeTryLock ino ⟨handle, ⟨start, stop⟩, exclusive⟩)
      match r with
      | .ok _ => pure ()
      | .error _ => fail .wouldBlock

def unlockRange (handle start stop : Nat) : FsM Unit := do
  if start ≥ stop then fail .invalid
  else
    match ← handlesGet handle with
    | none => fail .badHandle
    | some (ino, _) => call (.rangeUnlock ino handle ⟨start, stop⟩)

def testLock (handle start stop : Nat) (exclusive : Bool) : FsM (Option (Nat × Nat × Bool)) := do
  if start ≥ stop then fail .invalid
  else
    match ← handlesGet handle with
    | none => fail .badHandle
    | some (ino, _) =>
      let r ← call (.rangeTest ino ⟨handle, ⟨start, stop⟩, exclusive⟩)
      pure (r.map (fun l => (l.range.start, l.range.stop, l.exclusive)))

end SlateFs
