import SlateFs.Cache.Coherent
import SlateFs.Data.Chunks
import SlateFs.Seq.Files
import SlateFs.Seq.Quiet

/-!
# Snapshot volumes

A snapshot volume serves a checkpoint of the store to readers (`snapshot.rs`). It has no
caches and takes no locks, and its operations are written anew next to those of the live
volume. This module compares the two, request by request: what the live volume answers
in a state, and what the snapshot of that state answers.
-/

namespace SlateFs

open OrdMap FsM

/-! ## The snapshot's operations

`load_inode`, `load_dir`, `dirent_of`, `access` and `validate_name` are the live
volume's, word for word. -/

namespace SnapshotVolume

/-- Copy the chunks of a range, one read each. -/
def copyEach (chunkSize : Nat) (ino : Ino) (offset : Nat) : List Nat → Bytes → FsM Bytes
  | [], out => pure out
  | idx :: rest, out => do
      let chunk ← dbGet (.chunk ino idx)
      copyEach chunkSize ino offset rest (copyChunk chunkSize offset idx out chunk)

def readRange (chunkSize : Nat) (ino : Ino) (size offset len : Nat) : FsM Bytes :=
  if offset ≥ size ∨ len = 0 then pure []
  else do
    let stop := min size (addU64 offset len)
    let first ← chunkOf offset chunkSize
    let last ← chunkOf (subU64 stop 1) chunkSize
    copyEach chunkSize ino offset (chunkRange first last) (List.replicate (subU64 stop offset) 0)

def getattr (ino : Ino) : FsM FileAttr := do
  let i ← loadInode ino
  pure (makeAttr ino i)

/-- Everything that exists can be read, and nothing can be changed. -/
def permissions (ino : Ino) : FsM EntryPermissions := do
  let _ ← getattr ino
  pure ⟨true, false, false, false⟩

def lookup (v : Volume) (creds : Credentials) (parent : Ino) (name : Bytes) : FsM FileAttr := do
  let dir ← loadDir parent
  ofExcept (access creds dir ACCESS_R)
  if name = [46] then pure (makeAttr parent dir)
  else if name = [46, 46] then
    let p ← loadInode dir.parentDir
    pure (makeAttr dir.parentDir p)
  else
    ofExcept (validateName name)
    match ← direntOf v parent name with
    | some d =>
      let i ← loadInode d.childIno
      pure (makeAttr d.childIno i)
    | none => fail .notFound

def read (v : Volume) (creds : Credentials) (ino : Ino) (offset len : Nat) : FsM Bytes := do
  let i ← loadInode ino
  match i.kind with
  | .file =>
    ofExcept (access creds i ACCESS_R)
    readRange v.chunkSize ino i.size offset len
  | .dir => fail .isDir
  | _ => fail .invalid

def readdir (v : Volume) (creds : Credentials) (parent : Ino) (cookie maxEntries : Nat) :
    FsM (List DirEntry × Bool) := do
  let dir ← loadDir parent
  ofExcept (access creds dir ACCESS_R)
  let kvs ← scanDirentIdxs parent (nextCookie cookie)
  let kvs := kvs.filter (fun kv => kv.1 < 2 ^ 64 - 1)
  let entries ← ofExcept (openEntries v parent (kvs.take maxEntries))
  pure (entries, decide (kvs.length ≤ maxEntries))

end SnapshotVolume

/-! ## Requests -/

/-- A request of a reader. -/
inductive ReadRequest where
  | lookup (parent : Ino) (name : Bytes)
  | getattr (ino : Ino)
  | read (ino : Ino) (offset : UInt64) (len : UInt32)
  | readdir (parent : Ino) (cookie maxEntries : Nat)
  | readlink (ino : Ino)
  | getxattr (ino : Ino) (name : Bytes)
  | listxattr (ino : Ino)
  | permissions (ino : Ino) (parent : Option (Ino × Bytes))

/-- The call on the live volume. How it keeps access times is up to the export. -/
def ReadRequest.op (policy : AtimeMode) : ReadRequest → Op
  | .lookup p n => .lookup p n
  | .getattr ino => .getattr ino
  | .read ino o l => .read ino o.toNat l.toNat policy
  | .readdir p c m => .readdir p c m
  | .readlink ino => .readlink ino
  | .getxattr ino n => .getxattr ino n
  | .listxattr ino => .listxattr ino
  | .permissions ino p => .permissions ino p

/-- The call on the snapshot. Link targets and extended attributes are read as the live volume
reads them, which uses no cache for them. -/
def ReadRequest.onSnapshot (v : Volume) (creds : Credentials) : ReadRequest → FsM Reply
  | .lookup p n => .attr <$> SnapshotVolume.lookup v creds p n
  | .getattr ino => .attr <$> SnapshotVolume.getattr ino
  | .read ino o l => .bytes <$> SnapshotVolume.read v creds ino o.toNat l.toNat
  | .readdir p c m => (fun r => .entries r.1 r.2) <$> SnapshotVolume.readdir v creds p c m
  | .readlink ino => .bytes <$> SlateFs.readlink ino
  | .getxattr ino n => .bytes <$> SlateFs.getxattr creds ino n
  | .listxattr ino => .names <$> SlateFs.listxattr creds ino
  | .permissions ino _ => .perms <$> SnapshotVolume.permissions ino

/-- What a reader opens on a checkpoint: the store, and nothing remembered. -/
def St.checkpoint (s : St) : St := ⟨s.db, mountedMem s.db {} 0, 0⟩

/-- An answer without access times and without the bits for writing, deleting and renaming. -/
def Reply.seen : Reply → Reply
  | .attr a => .attr { a with atime := ⟨0, 0⟩ }
  | .perms p => .perms ⟨p.canRead, false, false, false⟩
  | r => r

/-- The same result, or the same error. -/
def SameAnswer (r r' : Except Abort Reply) : Prop := r.map Reply.seen = r'.map Reply.seen

/-! ## Programs that only read -/

section Reading

variable {α β : Type} {v : Volume} {env : Env} {db : Db} {p : FsM α} {f : α → FsM β}
  {x : Except Abort α} {y : α → Except Abort β}

/-- From a state on this store whose caches agree with it, the program returns `x`, and
leaves such a state. -/
def Reads (v : Volume) (env : Env) (db : Db) (p : FsM α) (x : Except Abort α) : Prop :=
  ∀ s, s.db = db → Agrees v s →
    ∃ s', p.run.run (Call.answer env) s = some (x, s') ∧ s'.db = db ∧ Agrees v s'

lemma run_call (c : Call) (s : St) : (FsM.call c).run.run (Call.answer env) s =
    some (.ok (c.answer env s).1, (c.answer env s).2) := rfl

namespace Reads

lemma pure (a : α) : Reads v env db (Pure.pure a : FsM α) (.ok a) := fun s hdb h =>
  ⟨s, rfl, hdb, h⟩

lemma fail (e : FsError) : Reads v env db (FsM.fail e : FsM α) (.error (.err e)) :=
  fun s hdb h => ⟨s, rfl, hdb, h⟩

lemma panicked : Reads v env db (FsM.panicked : FsM α) (.error .panic) :=
  fun s hdb h => ⟨s, rfl, hdb, h⟩

lemma bind (hp : Reads v env db p x) (hf : ∀ a, x = .ok a → Reads v env db (f a) (y a)) :
    Reads v env db (p >>= f) (x >>= y) := by
  intro s hdb h
  obtain ⟨s₁, hrun, hdb₁, h₁⟩ := hp s hdb h
  rw [ExceptT.run_bind, Prog.run_bind, hrun]
  cases x with
  | error e => exact ⟨s₁, rfl, hdb₁, h₁⟩
  | ok a => exact hf a rfl s₁ hdb₁ h₁

lemma next {a : α} {z : Except Abort β} (hp : Reads v env db p (.ok a))
    (hf : Reads v env db (f a) z) : Reads v env db (p >>= f) z :=
  Reads.bind (y := fun _ => z) hp fun b hb => by
    rw [← Except.ok.inj hb]
    exact hf

lemma ofExcept (x : Except FsError α) : Reads v env db (FsM.ofExcept x) (x.mapError .err) := by
  cases x with
  | error e => exact fail e
  | ok a => exact pure a

lemma stored {c : Call} {r : c.Ret} (hc : ∀ s : St, s.db = db → c.answer env s = (r, s)) :
    Reads v env db (FsM.call c) (.ok r) := by
  intro s hdb h
  refine ⟨s, ?_, hdb, h⟩
  rw [run_call, hc s hdb]

/-- A call whose answer may come from a cache. -/
lemma ask {c : Call} {f : c.Ret → FsM β} {z : Except Abort β}
    (hc : ∀ s, s.db = db → Agrees v s → ∃ r s', c.answer env s = (r, s') ∧ s'.db = db ∧
      Agrees v s' ∧ Reads v env db (f r) z) : Reads v env db (FsM.call c >>= f) z := by
  intro s hdb h
  obtain ⟨r, s', hans, hdb', h', hr⟩ := hc s hdb h
  rw [ExceptT.run_bind, Prog.run_bind, run_call, hans]
  exact hr s' hdb' h'

/-- A storage call whose error would end the operation. -/
lemma storage {c : Call} {r : c.Ret} {b : β} {f : c.Ret → FsM β} (hf : f r = Pure.pure b)
    (hc : ∀ s : St, s.db = db → c.answer env s = (r, s)) :
    Reads v env db (FsM.call c >>= f) (.ok b) := by
  refine Reads.bind (y := fun _ => .ok b) (stored hc) fun r' hr => ?_
  obtain rfl := Except.ok.inj hr
  rw [hf]
  exact pure b

lemma dbGet (k : Key) : Reads v env db (SlateFs.dbGet k) (.ok (db.get k)) :=
  storage (c := .get k) (r := .ok (db.get k)) rfl fun s hdb => by rw [Call.answer, hdb]

lemma scanDirentIdxs (p : Ino) (first : Nat) :
    Reads v env db (SlateFs.scanDirentIdxs p first) (.ok (db.direntIdxsFrom p first)) :=
  storage (c := .scanDirentIdxs p first) (r := .ok (db.direntIdxsFrom p first))
    rfl fun s hdb => by rw [Call.answer, hdb]

lemma scanXattrs (ino : Ino) : Reads v env db (SlateFs.scanXattrs ino) (.ok (db.xattrsOf ino)) :=
  storage (c := .scanXattrs ino) (r := .ok (db.xattrsOf ino)) rfl
    fun s hdb => by rw [Call.answer, hdb]

lemma snapshot : Reads v env db SlateFs.snapshot (.ok db) :=
  storage (c := .snapshot) (r := .ok db) rfl fun s hdb => by rw [Call.answer, hdb]

end Reads

/-! ## Loading -/

/-- The node as it is stored. -/
def foundOr (missing : FsError) (db : Db) (ino : Ino) : Except Abort Inode :=
  match db.get (.inode ino) with
  | some i => .ok i
  | none => .error (.err missing)

lemma foundOr_some {missing : FsError} {ino : Ino} {i : Inode}
    (hi : db.get (.inode ino) = some i) : foundOr missing db ino = .ok i := by
  rw [foundOr, hi]

lemma foundOr_none {missing : FsError} {ino : Ino} (hi : db.get (.inode ino) = none) :
    foundOr missing db ino = .error (.err missing) := by
  rw [foundOr, hi]

abbrev foundInode : Db → Ino → Except Abort Inode := foundOr .stale

def foundDir (db : Db) (ino : Ino) : Except Abort Inode := do
  let i ← foundInode db ino
  if i.kind.isDir then .ok i else .error (.err .notDir)

variable (cs : Nat) (creds : Credentials) (ino : Ino)

lemma Reads.loadInode : Reads v env db (SlateFs.loadInode ino) (foundInode db ino) := by
  refine Reads.bind
    (y := fun o => match o with | some i => .ok i | none => .error (.err .stale))
    (dbGet (.inode ino)) fun o _ => ?_
  cases o with
  | none => exact fail _
  | some i => exact pure i

lemma Reads.onlyDir (i : Inode) : Reads v env db
    (if i.kind.isDir then Pure.pure i else FsM.fail .notDir : FsM Inode)
    (if i.kind.isDir then .ok i else .error (.err .notDir)) := by
  split
  · exact pure i
  · exact fail _

lemma Reads.loadDir : Reads v env db (SlateFs.loadDir ino) (foundDir db ino) :=
  (loadInode ino).bind fun i _ => onlyDir i

section Caches

variable {s : St}

lemma Agrees.fill (h : Agrees v s) {ino : Ino} {i : Inode} (hi : s.db.get (.inode ino) = some i) :
    Agrees v (s.setAttrs { s.mem.attrs with attrs := s.mem.attrs.attrs.insert ino i }) := by
  refine ⟨fun j k hk => ?_, h.name⟩
  rcases of_get?_insert hk with ⟨rfl, rfl⟩ | hk
  · exact hi
  · exact h.node j k hk

lemma Agrees.miss (h : Agrees v s) {p : Ino} {n : Bytes}
    (hn : s.db.get (.dirent p (v.names.sealName p n)) = none) :
    Agrees v (s.setAttrs
      { s.mem.attrs with negative := s.mem.attrs.negative.insert (toLex (p, n)) () }) := by
  refine ⟨h.node, fun q m hm => ?_⟩
  rcases of_get?_insert hm with ⟨he, -⟩ | hm
  · obtain ⟨rfl, rfl⟩ := Prod.mk.inj (toLex_inj.mp he)
    exact hn
  · exact h.name q m hm

end Caches

/-- A node comes from the cache or from the store, and is the same. -/
lemma Reads.loadInodeCached :
    Reads v env db (SlateFs.loadInodeCached ino) (foundInode db ino) := by
  -- what is not cached is loaded and cached
  have hload : Reads v env db (do
      let i ← SlateFs.loadInode ino
      attrsInsert ino i
      Pure.pure i) (foundInode db ino) := by
    rw [← bind_pure (foundInode db ino)]
    refine (loadInode ino).bind fun i hi s hdb h => ⟨_, rfl, hdb, h.fill ?_⟩
    cases hget : db.get (.inode ino) with
    | none =>
      rw [foundInode, foundOr_none hget] at hi
      cases hi
    | some j =>
      rw [foundInode, foundOr_some hget] at hi
      exact hdb ▸ hget.trans (congrArg some (Except.ok.inj hi))
  refine ask fun s hdb h => ?_
  by_cases hev : env.evicted s.mem.ticks
  · exact ⟨_, _, if_pos hev, hdb,
      ⟨fun j i hi => h.node j i (get?_of_get?_erase hi), h.name⟩, hload⟩
  refine ⟨_, _, if_neg hev, hdb, ⟨h.node, h.name⟩, ?_⟩
  cases hc : s.mem.attrs.attrs.get? ino with
  | none => exact hload
  | some i =>
    rw [foundInode, foundOr_some (hdb ▸ h.node ino i hc)]
    exact pure i

lemma Reads.loadDirCached : Reads v env db (SlateFs.loadDirCached ino) (foundDir db ino) :=
  (loadInodeCached ino).bind fun i _ => onlyDir i

/-- A name that is known to be missing is missing. -/
lemma Reads.unlessNegative {p : Ino} {n : Bytes} {q : FsM α}
    (hmiss : db.get (.dirent p (v.names.sealName p n)) = none → x = .error (.err .notFound))
    (hq : Reads v env db q x) :
    Reads v env db (do if ← SlateFs.isNegative p n then FsM.fail .notFound else q) x := by
  refine ask fun s hdb h => ?_
  by_cases hev : env.evicted s.mem.ticks
  · exact ⟨_, _, if_pos hev, hdb,
      ⟨h.node, fun q m hm => h.name q m (get?_of_get?_erase hm)⟩, hq⟩
  refine ⟨_, _, if_neg hev, hdb, ⟨h.node, h.name⟩, ?_⟩
  cases hneg : s.mem.attrs.negative.get? (toLex (p, n)) with
  | none => exact hq
  | some u =>
    rw [hmiss (hdb ▸ h.name p n hneg)]
    exact fail _

lemma Reads.insertNegative {p : Ino} {n : Bytes}
    (hn : db.get (.dirent p (v.names.sealName p n)) = none) :
    Reads v env db (SlateFs.insertNegative p n) (.ok ()) :=
  fun s hdb h => ⟨_, rfl, hdb, h.miss (by rw [hdb]; exact hn)⟩

/-- Every error is reported as `e`. -/
def reportedAs (e : FsError) : Except Abort α → Except Abort α
  | .error (.err _) => .error (.err e)
  | x => x

lemma Reads.mapErr (e : FsError) (hp : Reads v env db p x) :
    Reads v env db (FsM.mapErr e p) (reportedAs e x) := by
  intro s hdb h
  obtain ⟨s₁, hrun, hdb₁, h₁⟩ := hp s hdb h
  refine ⟨s₁, ?_, hdb₁, h₁⟩
  unfold FsM.mapErr
  rw [ExceptT.run_mk, Prog.run_bind, hrun]
  rcases x with (e' | _) | a <;> rfl

/-- A node that an entry names and that is missing is reported as not found. -/
lemma Reads.childOf :
    Reads v env db (FsM.mapErr .notFound (SlateFs.loadInodeCached ino))
      (foundOr .notFound db ino) := by
  have hsame : foundOr .notFound db ino = reportedAs .notFound (foundInode db ino) := by
    unfold foundInode foundOr
    cases db.get (.inode ino) <;> rfl
  rw [hsame]
  exact (loadInodeCached ino).mapErr .notFound

/-! ## Names -/

/-- What a name stands for in a directory; a node that is missing is reported as `missing`. -/
def foundEntry (v : Volume) (db : Db) (missing : FsError) (parent : Ino) (dir : Inode)
    (name : Bytes) : Except Abort FileAttr := do
  if name = [46] then .ok (makeAttr parent dir)
  else if name = [46, 46] then
    let up ← foundInode db dir.parentDir
    .ok (makeAttr dir.parentDir up)
  else
    (validateName name).mapError .err
    match db.get (.dirent parent (v.names.sealName parent name)) with
    | some d =>
      let i ← foundOr missing db d.childIno
      .ok (makeAttr d.childIno i)
    | none => .error (.err .notFound)

/-- What a lookup finds that asks for `want`. -/
def foundName (v : Volume) (db : Db) (creds : Credentials) (want : UInt32) (missing : FsError)
    (parent : Ino) (name : Bytes) : Except Abort FileAttr := do
  let dir ← foundDir db parent
  (access creds dir want).mapError .err
  foundEntry v db missing parent dir name

lemma Reads.snapshotLookup (parent : Ino) (name : Bytes) :
    Reads v env db (SnapshotVolume.lookup v creds parent name)
      (foundName v db creds ACCESS_R .stale parent name) := by
  refine (loadDir parent).bind fun dir _ => (ofExcept _).bind fun _ _ => ?_
  unfold foundEntry
  split
  · exact pure _
  split
  · exact (loadInode _).bind fun up _ => pure _
  refine (ofExcept _).bind fun _ _ => ?_
  refine Reads.next (dbGet _) ?_
  cases db.get (.dirent parent (v.names.sealName parent name)) with
  | none => exact fail _
  | some d => exact (loadInode d.childIno).bind fun i _ => pure _

lemma Reads.liveLookup (parent : Ino) (name : Bytes) :
    Reads v env db (SlateFs.lookup v creds parent name)
      (foundName v db creds ACCESS_X .notFound parent name) := by
  refine (loadDirCached parent).bind fun dir _ => (ofExcept _).bind fun _ _ => ?_
  unfold foundEntry
  split
  · exact pure _
  split
  · exact (loadInodeCached _).bind fun up _ => pure _
  refine (ofExcept _).bind fun _ _ => unlessNegative (fun hnone => by rw [hnone]) ?_
  refine Reads.next (dbGet _) ?_
  cases hd : db.get (.dirent parent (v.names.sealName parent name)) with
  | none => exact Reads.next (insertNegative hd) (fail _)
  | some d => exact (childOf d.childIno).bind fun i _ => pure _

/-! ## Contents -/

/-- What a read of a range returns. -/
def foundRange (db : Db) (ino : Ino) (size offset len : Nat) : Except Abort Bytes :=
  if offset ≥ size ∨ len = 0 then .ok []
  else if cs = 0 then .error .panic
  else .ok (rangeOf cs db ino size offset len)

lemma Reads.chunkOf {offset cs : Nat} {g : Nat → FsM β} {z : Except Abort β}
    (hzero : cs = 0 → z = .error .panic)
    (hg : cs ≠ 0 → Reads v env db (g (offset / cs % 2 ^ 32)) z) :
    Reads v env db (SlateFs.chunkOf offset cs >>= g) z := by
  unfold SlateFs.chunkOf
  split
  · rename_i hcs
    rw [hzero hcs]
    exact panicked.bind (y := fun _ => .error .panic) nofun
  · rename_i hcs
    exact (pure _).next (hg hcs)

lemma Reads.readRange (size offset len : Nat) :
    Reads v env db (SlateFs.readRange cs ino size offset len)
      (foundRange cs db ino size offset len) := by
  unfold SlateFs.readRange foundRange
  split
  · exact pure _
  refine chunkOf (fun hcs => if_pos hcs) fun hcs => chunkOf (fun h => absurd h hcs) fun _ => ?_
  rw [if_neg hcs, rangeOf]
  split
  · exact (dbGet _).next (pure _)
  · exact snapshot.next (pure _)

lemma Reads.copyEach (offset : Nat) (idxs : List Nat) (out : Bytes) :
    Reads v env db (SnapshotVolume.copyEach cs ino offset idxs out)
      (.ok (copyChunks db cs ino offset idxs out)) := by
  induction idxs generalizing out with
  | nil => exact pure out
  | cons idx rest ih => exact (dbGet _).next (ih _)

/-- The snapshot goes through the chunks one by one where the live volume may read only one. -/
lemma Reads.snapshotRange (size offset len : Nat) :
    Reads v env db (SnapshotVolume.readRange cs ino size offset len)
      (foundRange cs db ino size offset len) := by
  unfold SnapshotVolume.readRange foundRange
  split
  · exact pure _
  refine chunkOf (fun hcs => if_pos hcs) fun hcs => chunkOf (fun h => absurd h hcs) fun _ => ?_
  rw [if_neg hcs, rangeOf]
  split
  · rename_i hone
    rw [← hone]
    have hsingle : ∀ k, chunkRange k k = [k] := fun k => by
      rw [chunkRange, Nat.add_sub_cancel_left]
      rfl
    rw [hsingle]
    exact copyEach cs ino offset _ _
  · exact copyEach cs ino offset _ _

/-- What a read finds, with what is done to the bytes before they are returned. -/
def foundBytes (v : Volume) (db : Db) (creds : Credentials) (ino : Ino) (offset len : Nat)
    (finish : Inode → Bytes → Except Abort Bytes) : Except Abort Bytes := do
  let i ← foundInode db ino
  match i.kind with
  | .file =>
    (access creds i ACCESS_R).mapError .err
    let bytes ← foundRange v.chunkSize db ino i.size offset len
    finish i bytes
  | .dir => .error (.err .isDir)
  | _ => .error (.err .invalid)

/-- Read-ahead divides by the chunk size. -/
def readAhead (v : Volume) (offset : Nat) (i : Inode) (bytes : Bytes) : Except Abort Bytes :=
  if addU64 offset bytes.length = 0 ∨ addU64 offset bytes.length ≥ i.size then .ok bytes
  else if v.chunkSize = 0 then .error .panic
  else .ok bytes

lemma Reads.snapshotRead (offset len : Nat) :
    Reads v env db (SnapshotVolume.read v creds ino offset len)
      (foundBytes v db creds ino offset len fun _ bytes => .ok bytes) := by
  refine (loadInode ino).bind fun i _ => ?_
  split
  · refine (ofExcept _).bind fun _ _ => ?_
    have hsame : (foundRange v.chunkSize db ino i.size offset len >>= fun bytes => .ok bytes) =
        foundRange v.chunkSize db ino i.size offset len := by
      cases foundRange v.chunkSize db ino i.size offset len <;> rfl
    rw [hsame]
    exact snapshotRange _ _ _ _ _
  · exact fail _
  · exact fail _

/-- The program returns `x`. It may have written, as a read does that records its time. -/
def Returns (v : Volume) (env : Env) (db : Db) (p : FsM α) (x : Except Abort α) : Prop :=
  ∀ s, s.db = db → Agrees v s → ∃ s', p.run.run (Call.answer env) s = some (x, s')

lemma Reads.returns (h : Reads v env db p x) : Returns v env db p x := by
  intro s hdb hag
  obtain ⟨s', hrun, -⟩ := h s hdb hag
  exact ⟨s', hrun⟩

lemma Reads.bindReturns (hp : Reads v env db p x)
    (hf : ∀ a, x = .ok a → Returns v env db (f a) (y a)) :
    Returns v env db (p >>= f) (x >>= y) := by
  intro s hdb h
  obtain ⟨s₁, hrun, hdb₁, h₁⟩ := hp s hdb h
  rw [ExceptT.run_bind, Prog.run_bind, hrun]
  cases x with
  | error e => exact ⟨s₁, rfl⟩
  | ok a => exact hf a rfl s₁ hdb₁ h₁

/-- Recording the time of a read does not fail it. -/
lemma run_maybeUpdateAtime (env : Env) (ino : Ino) (i : Inode) (policy : AtimeMode) (s : St) :
    ∃ s', (maybeUpdateAtime ino i policy).run.run (Call.answer env) s = some (.ok (), s') := by
  have hw : wp (Oracle.any.watch (fun _ _ => True) False) (fun _ _ => True) (fun _ _ => False)
      (maybeUpdateAtime ino i policy) s.db :=
    wp_maybeUpdateAtime trivial fun _ _ _ _ => ⟨trivial, trivial⟩
  obtain ⟨r, s', hrun, hpost⟩ := any_returns env hw
  cases r with
  | error e => exact hpost.elim
  | ok u => exact ⟨s', hrun⟩

lemma Returns.liveRead (offset len : Nat) (policy : AtimeMode) :
    Returns v env db (readWithAtimePolicy v creds ino offset len policy)
      (foundBytes v db creds ino offset len (readAhead v offset)) := by
  refine (Reads.loadInodeCached ino).bindReturns fun i _ => ?_
  cases i.kind with
  | file =>
    refine (Reads.ofExcept _).bindReturns fun _ _ =>
      (Reads.readRange _ _ _ _ _).bindReturns fun bytes _ => ?_
    have hahead : Reads v env db (planReadahead v.chunkSize (addU64 offset bytes.length) i.size)
        ((readAhead v offset i bytes).map fun _ => ()) := by
      unfold planReadahead readAhead
      split
      · exact Reads.pure ()
      · exact Reads.chunkOf (fun hcs => by rw [if_pos hcs]; rfl)
          fun hcs => by rw [if_neg hcs]; exact Reads.pure ()
    have hsame : readAhead v offset i bytes =
        (readAhead v offset i bytes).map (fun _ => ()) >>= fun _ => .ok bytes := by
      unfold readAhead
      split
      · rfl
      · split <;> rfl
    rw [hsame]
    refine hahead.bindReturns fun _ _ s hdb h => ?_
    obtain ⟨s', hrun⟩ := run_maybeUpdateAtime env ino i policy s
    rw [ExceptT.run_bind, Prog.run_bind, hrun]
    exact ⟨s', rfl⟩
  | dir => exact (Reads.fail _).returns
  | _ => exact (Reads.fail _).returns

end Reading

end SlateFs
