import Mathlib.Logic.Relation
import SlateFs.Data.Plan
import SlateFs.Lib.Forest

/-!
# What a batch can do

Every batch the volume commits is one of a few kinds of change, or two of them
at once. `Txn` lists the kinds, each with what the operation checked before it
committed. The operations are related to `Txn` once (`SlateFs.Seq.Ops`); after
that an invariant of the database is proved by going through this list.

Some facts hold only as long as callers stay away from certain inputs. A `Guard`
says which inputs those are, and `Txn` carries it along.
-/

namespace SlateFs

/-- The directory above a directory, as the store has it. -/
def Db.up (db : Db) (ino : Ino) : Ino :=
  match db.inodes.get? ino with
  | some i => i.parentDir
  | none => ino

/-- The same node but for permissions, times and flags. -/
structure Inode.Alike (i' i : Inode) : Prop where
  kind : i'.kind = i.kind
  nlink : i'.nlink = i.nlink
  size : i'.size = i.size
  nextDirentId : i'.nextDirentId = i.nextDirentId
  billedBytes : i'.billedBytes = i.billedBytes
  parentDir : i'.parentDir = i.parentDir

lemma Inode.Alike.refl (i : Inode) : i.Alike i := ⟨rfl, rfl, rfl, rfl, rfl, rfl⟩

lemma Inode.Alike.trans {a b c : Inode} (h : a.Alike b) (h' : b.Alike c) : a.Alike c :=
  ⟨h.kind.trans h'.kind, h.nlink.trans h'.nlink, h.size.trans h'.size,
    h.nextDirentId.trans h'.nextDirentId, h.billedBytes.trans h'.billedBytes,
    h.parentDir.trans h'.parentDir⟩

/-- No record of the volume belongs to this number or mentions it. -/
structure Unused (db : Db) (n : Ino) : Prop where
  inode : db.inodes.get? n = none
  entry : ∀ e, db.dirents.get? (toLex (n, e)) = none
  idx : ∀ i, db.direntIdxs.get? (toLex (n, i)) = none
  named : ∀ k d, db.dirents.get? k = some d → d.childIno ≠ n
  chunk : ∀ i, db.chunks.get? (toLex (n, i)) = none
  symlink : db.symlinks.get? n = none
  xattr : ∀ x, db.xattrs.get? (toLex (n, x)) = none
  orphan : db.orphans.get? n = none

/-- A node as create, mkdir, mknod and symlink make it. -/
structure NewNode (parentIno : Ino) (child : Inode) : Prop where
  nlink : child.nlink = if child.kind.isDir then 2 else 1
  billedBytes : child.billedBytes = 0
  parentDir : child.kind.isDir → child.parentDir = parentIno
  firstId : FIRST_DIRENT_ID ≤ child.nextDirentId
  size : child.kind = .file → child.size = 0

/-- Neither chunks nor attributes nor a link target are stored under this number. -/
structure Bare (db : Db) (n : Ino) : Prop where
  chunk : ∀ i, db.chunks.get? (toLex (n, i)) = none
  xattr : ∀ x, db.xattrs.get? (toLex (n, x)) = none
  symlink : db.symlinks.get? n = none

/-- Which inputs are allowed. -/
structure Guard where
  /-- Numbers a new node may take. -/
  fresh : Ino → Prop
  /-- Nodes that may get another name. -/
  link : Inode → Prop
  /-- Link counts of directories that may get another sub-directory. -/
  subdir : UInt32 → Prop
  /-- Next ids of directories that may get another entry. -/
  entry : Nat → Prop
  /-- Writes of some bytes at some offset of a file. -/
  write : Db → Ino → Inode → Nat → Bytes → Prop
  /-- Changes of a file's size. -/
  truncate : Db → Ino → Inode → Nat → Prop
  /-- Directories that may go while they have extended attributes. -/
  strand : Db → Ino → Prop

/-- Everything is allowed. -/
def Guard.any : Guard := ⟨fun _ => True, fun _ => True, fun _ => True, fun _ => True,
  fun _ _ _ _ _ => True, fun _ _ _ _ => True, fun _ _ => True⟩

/-- One record of a dead inode goes. -/
inductive Reap1 (ino : Ino) (db : Db) : Db → Prop where
  | chunk (idx : Nat) : Reap1 ino db (db.delete (.chunk ino idx))
  | xattr (name : Bytes) : Reap1 ino db (db.delete (.xattr ino name))
  | symlink : Reap1 ino db (db.delete (.symlink ino))
  /-- The marker goes last. -/
  | marker (h : Bare db ino) : Reap1 ino db (db.delete (.orphan ino))

/-- Records of a dead inode go, one after another. -/
abbrev Reaps (ino : Ino) : Db → Db → Prop := Relation.ReflTransGen (Reap1 ino)

/-- The state of a name and of the node behind it, as a removal finds them. -/
structure Names (v : Volume) (db : Db) (parent : Ino) (dir : Inode) (name : Bytes) (d : Dirent)
    (child : Inode) : Prop where
  hdir : db.inodes.get? parent = some dir
  hisDir : dir.kind = .dir
  hentry : db.dirents.get? (toLex (parent, v.names.sealName parent name)) = some d
  hchild : db.inodes.get? d.childIno = some child

/-- One kind of change. -/
inductive Txn (v : Volume) (G : Guard) (db : Db) : Db → Prop where
  /-- The allocator's mark moves. -/
  | lease (n : Nat) : Txn v G db { db with nextIno := n }
  /-- Permissions or times of a node change. -/
  | touch {ino : Ino} {i i' : Inode} (hi : db.inodes.get? ino = some i) (h : i'.Alike i) :
      Txn v G db (db.put (.inode ino) i')
  | setXattr {ino : Ino} {i : Inode} (name value : Bytes) (hi : db.inodes.get? ino = some i) :
      Txn v G db (db.put (.xattr ino name) value)
  | dropXattr (ino : Ino) (name : Bytes) : Txn v G db (db.delete (.xattr ino name))
  /-- A new node appears under a free name. -/
  | insertNode {parentIno : Ino} {parent : Inode} {name : Bytes} {childIno : Ino} {child : Inode}
      (target : Option Bytes) (ts : Timespec) (hparent : db.inodes.get? parentIno = some parent)
      (hdir : parent.kind = .dir)
      (hfree : db.dirents.get? (toLex (parentIno, v.names.sealName parentIno name)) = none)
      (hnew : Unused db childIno) (hfresh : G.fresh childIno) (hchild : NewNode parentIno child)
      (hsub : child.kind.isDir → G.subdir parent.nlink)
      (htarget : target.isSome → child.kind = .symlink) (hid : G.entry parent.nextDirentId) :
      Txn v G db (db.apply
        (insertNodeBatch v parentIno parent name childIno child target ts))
  /-- A node that is no directory gets another name. -/
  | link {ino : Ino} {i i' : Inode} {newParent : Ino} {dir : Inode} {newName : Bytes}
      (ts : Timespec) (hi : db.inodes.get? ino = some i) (hkind : i.kind ≠ .dir)
      (hdir : db.inodes.get? newParent = some dir) (hisDir : dir.kind = .dir)
      (hfree : db.dirents.get? (toLex (newParent, v.names.sealName newParent newName)) = none)
      (hroom : i.nlink.toNat + 1 < 2 ^ 32) (hi' : i'.Alike { i with nlink := i.nlink + 1 })
      (hG : G.link i) (hid : G.entry dir.nextDirentId) :
      Txn v G db (db.apply (linkBatch v ino i' newParent dir newName ts))
  /-- A name goes and its node has others. -/
  | unlinkKeep {parent : Ino} {dir dir' : Inode} {name : Bytes} {d : Dirent}
      {child child' : Inode} (hn : Names v db parent dir name d child) (hkind : child.kind ≠ .dir)
      (hdir' : dir'.Alike dir) (hlast : child.nlink - 1 ≠ 0)
      (hchild' : child'.Alike { child with nlink := child.nlink - 1 }) :
      Txn v G db (db.apply (dropEntry v parent name d.direntId
        ++ [.put (.inode parent) dir', .put (.inode d.childIno) child']))
  /-- The last name goes while a handle is open: the node stays, marked. -/
  | unlinkOpen {parent : Ino} {dir dir' : Inode} {name : Bytes} {d : Dirent}
      {child : Inode} (ts : Timespec) (hn : Names v db parent dir name d child)
      (hkind : child.kind ≠ .dir) (hdir' : dir'.Alike dir) (hlast : child.nlink - 1 = 0) :
      Txn v G db (db.apply (dropEntry v parent name d.direntId
        ++ [.put (.inode parent) dir']
        ++ buryOpen d.childIno { child with nlink := child.nlink - 1 } ts))
  /-- The last name goes and the node with it. -/
  | unlinkGone {parent : Ino} {dir dir' : Inode} {name : Bytes} {d : Dirent}
      {child : Inode} (hn : Names v db parent dir name d child)
      (hkind : child.kind ≠ .dir) (hdir' : dir'.Alike dir) (hlast : child.nlink - 1 = 0) :
      Txn v G db (db.apply (dropEntry v parent name d.direntId
        ++ [.put (.inode parent) dir']
        ++ buryGone d.childIno { child with nlink := child.nlink - 1 }))
  /-- An empty directory goes. -/
  | rmdir {parent : Ino} {dir dir' : Inode} {name : Bytes} {d : Dirent} {child : Inode}
      (hn : Names v db parent dir name d child) (hkind : child.kind = .dir)
      (hempty : ∀ e, db.dirents.get? (toLex (d.childIno, e)) = none)
      (hdir' : dir'.Alike { dir with nlink := dir.nlink - 1 })
      (hxattr : (∀ n, db.xattrs.get? (toLex (d.childIno, n)) = none) ∨ G.strand db d.childIno) :
      Txn v G db (db.apply (dropEntry v parent name d.direntId
        ++ [.delete (.inode d.childIno), .put (.inode parent) dir', .mergeInodes (-1)]))
  /-- A node moves to a free name. -/
  | move {oldParent newParent : Ino} {oldName newName : Bytes} {src : Dirent}
      {oldDir newDir moved : Inode} (crossing : Bool) (ts : Timespec)
      (hsrc : Names v db oldParent oldDir oldName src moved)
      (hnew : db.inodes.get? newParent = some newDir) (hnewDir : newDir.kind = .dir)
      (hfree : db.dirents.get? (toLex (newParent, v.names.sealName newParent newName)) = none)
      (hcross : crossing = (moved.kind.isDir && oldParent ≠ newParent))
      (hwalk : crossing → Forest.Avoids db.up ROOT_INO src.childIno newParent)
      (hsub : crossing → G.subdir newDir.nlink) (hid : G.entry newDir.nextDirentId) :
      Txn v G db (db.apply (renameBatch v oldParent oldName newParent newName src oldDir moved
        ⟨[], newDir, none, 0, 0⟩ crossing ts))
  /-- Bytes are written to a file. -/
  | write {ino : Ino} {i i' : Inode} {offset : Nat} {data : Bytes}
      (hi : db.inodes.get? ino = some i) (hkind : i.kind = .file) (hdata : data ≠ [])
      (hmax : offset + data.length ≤ v.chunkSize * (2 ^ 32 - 1))
      (hi' : i'.Alike { i with
        size := (writePlanOf v.chunkSize db ino i.size offset data).newSize
        billedBytes := billedAfter i.billedBytes
          (writePlanOf v.chunkSize db ino i.size offset data).billedDelta })
      (hG : G.write db ino i offset data) :
      Txn v G db (db.apply (writeBatch ino i' (writePlanOf v.chunkSize db ino i.size offset data)))
  /-- A file's size changes. -/
  | truncate {ino : Ino} {i i' : Inode} {newSize : Nat} (hi : db.inodes.get? ino = some i)
      (hkind : i.kind = .file) (hne : newSize ≠ i.size)
      (hcs : newSize < i.size → v.chunkSize ≠ 0)
      (hi' : i'.Alike { i with
        size := newSize
        billedBytes := billedAfter i.billedBytes
          (truncatePlanOf v.chunkSize db ino i.size newSize).billedDelta })
      (hG : G.truncate db ino i newSize) :
      Txn v G db (db.apply (truncateBatch ino (truncatePlanOf v.chunkSize db ino i.size newSize)
        ++ [.put (.inode ino) i']))
  /-- A chunk beyond the end of its file goes. -/
  | spill {ino : Ino} {i : Inode} {idx : Nat} (hi : db.inodes.get? ino = some i)
      (hidx : i.size ≤ idx * v.chunkSize) : Txn v G db (db.delete (.chunk ino idx))
  /-- A marked node goes. -/
  | finish {ino : Ino} {i : Inode} (hi : db.inodes.get? ino = some i)
      (hmark : (db.orphans.get? ino).isSome) : Txn v G db (db.apply (finishBatch ino i))
  /-- A record of a node that is gone goes. -/
  | reap {ino : Ino} {db' : Db} (hgone : db.inodes.get? ino = none) (h : Reap1 ino db db') :
      Txn v G db db'

/-- Several changes, one after another. -/
abbrev Txns (v : Volume) (G : Guard) : Db → Db → Prop := Relation.ReflTransGen (Txn v G)

end SlateFs
