import Mathlib.Data.Prod.Lex
import Mathlib.Order.Lex
import Mathlib.Data.List.Lex
import SlateFs.Lib.OrdMap

/-!
# Records and keys of a volume

The per-volume schema (`meta/*.rs`). Every record family has its own key shape,
a one-byte tag followed by fixed-width big-endian integers, so key order is
numeric order and a family's keys for one inode are one range. Here each family
is an ordered map of its own, keyed by the numbers inside the key.

Values are kept decoded. Encoding is postcard behind a version byte, a lossless
codec from outside the repository.
-/

namespace SlateFs

/-- Byte strings: names, chunk values, link targets. -/
abbrev Bytes := List UInt8

instance instLinearOrderUInt8 : LinearOrder UInt8 where
  le_refl _ := UInt8.le_refl _
  le_trans _ _ _ := UInt8.le_trans
  le_antisymm _ _ := UInt8.le_antisymm
  le_total _ _ := UInt8.le_total _ _
  lt_iff_le_not_ge a b := by
    simp only [UInt8.lt_iff_toNat_lt, UInt8.le_iff_toNat_le]; omega
  toDecidableLE := inferInstance

/-- Inode numbers. -/
abbrev Ino := Nat

def ROOT_INO : Ino := 1

def MAX_NAME_LEN : Nat := 255

/-- First real dirent id: cookies 1 and 2 are reserved for "." and "..". -/
def FIRST_DIRENT_ID : Nat := 3

inductive FileKind where
  | file | dir | symlink | fifo | socket | charDev | blockDev
  deriving DecidableEq, Repr

def FileKind.isDir : FileKind → Bool
  | .dir => true
  | _ => false

structure Timespec where
  secs : Int
  nanos : Nat
  deriving DecidableEq, Repr

/-- The derived order: seconds first, then nanoseconds. -/
def Timespec.lt (a b : Timespec) : Bool :=
  a.secs < b.secs || (a.secs = b.secs && a.nanos < b.nanos)

/-- Inode record (`i/<ino>`). -/
structure Inode where
  kind : FileKind
  mode : UInt32
  uid : UInt32
  gid : UInt32
  nlink : UInt32
  size : Nat
  atime : Timespec
  mtime : Timespec
  ctime : Timespec
  rdev : Nat
  generation : UInt32
  flags : UInt32
  /-- Directories only: the next dirent id to hand out, a `u64`. -/
  nextDirentId : Nat
  /-- What this file's chunks are billed. -/
  billedBytes : UInt64
  /-- Directories only: the containing directory. -/
  parentDir : Ino
  deriving DecidableEq, Repr

/-- `next_dirent_id += 1` -/
def nextId (id : Nat) : Nat := (id + 1) % 2 ^ 64

lemma nextId_of_lt {id : Nat} (h : id + 1 < 2 ^ 64) : nextId id = id + 1 := Nat.mod_eq_of_lt h

/-- A fresh inode, with link and time bookkeeping initialised for its kind. -/
def Inode.new (kind : FileKind) (mode uid gid : UInt32) (now : Timespec) : Inode where
  kind := kind
  mode := mode &&& 0o7777
  uid := uid
  gid := gid
  nlink := if kind.isDir then 2 else 1
  size := 0
  atime := now
  mtime := now
  ctime := now
  rdev := 0
  generation := 0
  flags := 0
  nextDirentId := FIRST_DIRENT_ID
  billedBytes := 0
  parentDir := 0

def Inode.touchMtime (i : Inode) (now : Timespec) : Inode :=
  { i with mtime := now, ctime := now }

/-- Directory entry (`d/<parent>/<enc_name>`). -/
structure Dirent where
  name : Bytes
  childIno : Ino
  kind : FileKind
  direntId : Nat
  deriving DecidableEq, Repr

/-- Readdir index record (`e/<parent>/<dirent_id>`). -/
structure DirentIdx where
  encName : Bytes
  childIno : Ino
  kind : FileKind
  deriving DecidableEq, Repr

/-- Orphan marker (`o/<ino>`). -/
structure Orphan where
  size : Nat
  kind : FileKind
  deriving DecidableEq, Repr

/--
Deterministic per-directory name encryption. The cipher is AES-SIV, from outside
the repository; all the volume relies on is that a sealed name opens to itself.
-/
structure NameCodec where
  sealName : Ino → Bytes → Bytes
  openName : Ino → Bytes → Option Bytes
  /-- Sealing is undone by opening under the same directory. -/
  open_seal : ∀ p n, openName p (sealName p n) = some n

lemma NameCodec.seal_inj (c : NameCodec) {p : Ino} {a b : Bytes}
    (h : c.sealName p a = c.sealName p b) : a = b := by
  have := c.open_seal p a
  rw [h, c.open_seal] at this
  exact (Option.some.inj this).symm

/-! ## Keys -/

/-- The volume's keys, one constructor per record family. -/
inductive Key where
  | inode (ino : Ino)
  | dirent (parent : Ino) (encName : Bytes)
  | direntIdx (parent : Ino) (direntId : Nat)
  | chunk (ino : Ino) (idx : Nat)
  | symlink (ino : Ino)
  | xattr (ino : Ino) (name : Bytes)
  | orphan (ino : Ino)
  deriving DecidableEq, Repr

/-- The record a key holds. -/
def Key.Val : Key → Type
  | .inode _ => Inode
  | .dirent _ _ => Dirent
  | .direntIdx _ _ => DirentIdx
  | .chunk _ _ => Bytes
  | .symlink _ => Bytes
  | .xattr _ _ => Bytes
  | .orphan _ => Orphan

/-- The node a record belongs to. -/
def Key.owner : Key → Ino
  | .inode ino => ino
  | .dirent p _ => p
  | .direntIdx p _ => p
  | .chunk ino _ => ino
  | .symlink ino => ino
  | .xattr ino _ => ino
  | .orphan ino => ino

/-- The contents of a volume's database. -/
structure Db where
  inodes : OrdMap Ino Inode
  dirents : OrdMap (Ino ×ₗ Bytes) Dirent
  direntIdxs : OrdMap (Ino ×ₗ Nat) DirentIdx
  chunks : OrdMap (Ino ×ₗ Nat) Bytes
  symlinks : OrdMap Ino Bytes
  xattrs : OrdMap (Ino ×ₗ Bytes) Bytes
  orphans : OrdMap Ino Orphan
  /-- `qB`: billed bytes. -/
  quotaBytes : Int64
  /-- `qI`: inode records. -/
  quotaInodes : Int64
  /-- `a`: the allocator's high-water mark. -/
  nextIno : Nat
  deriving DecidableEq

namespace Db

variable (db : Db)

/-- Point read. -/
def get : (k : Key) → Option k.Val
  | .inode ino => db.inodes.get? ino
  | .dirent p n => db.dirents.get? (toLex (p, n))
  | .direntIdx p i => db.direntIdxs.get? (toLex (p, i))
  | .chunk ino i => db.chunks.get? (toLex (ino, i))
  | .symlink ino => db.symlinks.get? ino
  | .xattr ino n => db.xattrs.get? (toLex (ino, n))
  | .orphan ino => db.orphans.get? ino

def put : (k : Key) → k.Val → Db
  | .inode ino, v => { db with inodes := db.inodes.insert ino v }
  | .dirent p n, v => { db with dirents := db.dirents.insert (toLex (p, n)) v }
  | .direntIdx p i, v => { db with direntIdxs := db.direntIdxs.insert (toLex (p, i)) v }
  | .chunk ino i, v => { db with chunks := db.chunks.insert (toLex (ino, i)) v }
  | .symlink ino, v => { db with symlinks := db.symlinks.insert ino v }
  | .xattr ino n, v => { db with xattrs := db.xattrs.insert (toLex (ino, n)) v }
  | .orphan ino, v => { db with orphans := db.orphans.insert ino v }

def delete : Key → Db
  | .inode ino => { db with inodes := db.inodes.erase ino }
  | .dirent p n => { db with dirents := db.dirents.erase (toLex (p, n)) }
  | .direntIdx p i => { db with direntIdxs := db.direntIdxs.erase (toLex (p, i)) }
  | .chunk ino i => { db with chunks := db.chunks.erase (toLex (ino, i)) }
  | .symlink ino => { db with symlinks := db.symlinks.erase ino }
  | .xattr ino n => { db with xattrs := db.xattrs.erase (toLex (ino, n)) }
  | .orphan ino => { db with orphans := db.orphans.erase ino }

/-! ### Prefix scans -/

/-- The entries of a directory. -/
def direntsOf (parent : Ino) : List (Bytes × Dirent) :=
  (db.dirents.scan (fun k => (ofLex k).1 = parent)).map (fun e => ((ofLex e.1).2, e.2))

/-- A file's stored chunks from index `first` on, in index order. -/
def chunksFrom (ino : Ino) (first : Nat) : List (Nat × Bytes) :=
  (db.chunks.scan (fun k => (ofLex k).1 = ino ∧ first ≤ (ofLex k).2)).map
    (fun e => ((ofLex e.1).2, e.2))

/-- A node's extended attributes. -/
def xattrsOf (ino : Ino) : List (Bytes × Bytes) :=
  (db.xattrs.scan (fun k => (ofLex k).1 = ino)).map (fun e => ((ofLex e.1).2, e.2))

/-- A directory's index records with an id from `first` on, in id order. -/
def direntIdxsFrom (parent : Ino) (first : Nat) : List (Nat × DirentIdx) :=
  (db.direntIdxs.scan (fun k => (ofLex k).1 = parent ∧ first ≤ (ofLex k).2)).map
    (fun e => ((ofLex e.1).2, e.2))

/-- The orphan markers. -/
def orphansOf : List (Ino × Orphan) := db.orphans.entries

end Db

/-! ## Batches -/

/-- One write of a batch. -/
inductive Write where
  | put (k : Key) (v : k.Val)
  | delete (k : Key)
  /-- Merge a delta into `qB`. -/
  | mergeBytes (delta : Int64)
  /-- Merge a delta into `qI`. -/
  | mergeInodes (delta : Int64)

/-- A write batch, applied as one. -/
abbrev Batch := List Write

/-- The merge operator sums deltas with wrapping addition. -/
def Db.applyWrite (db : Db) : Write → Db
  | .put k v => db.put k v
  | .delete k => db.delete k
  | .mergeBytes d => { db with quotaBytes := db.quotaBytes + d }
  | .mergeInodes d => { db with quotaInodes := db.quotaInodes + d }

def Db.apply (db : Db) (b : Batch) : Db := b.foldl Db.applyWrite db

@[simp] lemma Db.apply_nil (db : Db) : db.apply [] = db := rfl

@[simp] lemma Db.apply_cons (db : Db) (w : Write) (b : Batch) :
    db.apply (w :: b) = (db.applyWrite w).apply b := rfl

lemma Db.apply_append (db : Db) (b c : Batch) : db.apply (b ++ c) = (db.apply b).apply c :=
  List.foldl_append ..

end SlateFs
