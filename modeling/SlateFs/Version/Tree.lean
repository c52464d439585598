import SlateFs.Version.Paths
import SlateFs.Lib.Edits
import Mathlib.Data.Sum.Order

/-!
# Versioned trees

A versioned tree is a finite map from keys to values: for every path its metadata, and
for every chunk of a file the blob that holds it. Comparing, merging and picking work
on the maps. How a Prolly tree keeps a map in nodes is left to a parameter, `Prolly`.

A key is the text of a path and, for a chunk, an index. In the source it is the bytes
`m/` and the path, or `c/`, the path, a NUL and the index in four bytes; the order of
the keys is the same.
-/

namespace SlateFs.Version

open OrdMap

variable {Id : Type} [ObjectId Id]

/-! ## Keys and values -/

inductive VersionEntryData where
  | file (chunkCount : Nat)
  | directory
  | symlink (target : Bytes)
  deriving DecidableEq, Repr

structure VersionEntry where
  mode : Nat
  uid : Nat
  gid : Nat
  size : Nat
  atime : Timespec
  mtime : Timespec
  data : VersionEntryData
  deriving DecidableEq, Repr

/-- The key of a chunk (left) or of metadata (right). -/
abbrev TreeKey := Lex ((String ×ₗ Nat) ⊕ String)

/-- `file_meta_key` -/
def fileMetaKey (path : String) : TreeKey := toLex (.inr path)

/-- `file_chunk_key` -/
def fileChunkKey (path : String) (index : Nat) : TreeKey := toLex (.inl (toLex (path, index)))

inductive TreeValue (Id : Type) where
  | entry (metadata : VersionEntry)
  | chunk (reference : BlobRef Id)
  deriving DecidableEq

/-- What a tree holds. -/
abbrev Contents (Id : Type) := OrdMap TreeKey (TreeValue Id)

lemma key_cases (key : TreeKey) :
    (∃ path index, key = fileChunkKey path index) ∨ ∃ path, key = fileMetaKey path := by
  rcases key with ⟨path, index⟩ | path
  · exact .inl ⟨path, index, rfl⟩
  · exact .inr ⟨path, rfl⟩

/-- The path in the text of a key, and whether the key is one of metadata. In a chunk key the
path ends at the first NUL. -/
def keyPath (key : TreeKey) : String × Bool :=
  match ofLex key with
  | .inl chunk => (String.ofList ((ofLex chunk).1.toList.takeWhile (· ≠ '\x00')), false)
  | .inr path => (path, true)

/-- `version_path_from_tree_key` -/
def versionPathFromTreeKey (key : TreeKey) : Except Error (String × Bool) :=
  match canonicalPath (keyPath key).1 with
  | .error e => .error e
  | .ok path => .ok (path, (keyPath key).2)

/-- `version_key_matches_any_path` -/
def versionKeyMatchesAnyPath (key : TreeKey) (paths : List String) : Bool :=
  paths.any (pathIsWithin (keyPath key).1)

lemma keyPath_fileChunkKey {path : String} (h : '\x00' ∉ path.toList) (index : Nat) :
    keyPath (fileChunkKey path index) = (path, false) := by
  show (String.ofList (path.toList.takeWhile (· ≠ '\x00')), false) = _
  have : path.toList.takeWhile (· ≠ '\x00') = path.toList := by
    rw [List.takeWhile_eq_self_iff]
    intro c hc
    have : c ≠ '\x00' := fun h' => h (h' ▸ hc)
    simpa using this
  rw [this, String.ofList_toList]

/-- A set of paths, in order. -/
abbrev PathSet := OrdMap String Unit

namespace PathSet

def ofList (paths : List String) : PathSet := insertAll ∅ (paths.map (·, ()))

def toList (s : PathSet) : List String := s.entries.map (·.1)

variable {p : String} {paths : List String}

lemma mem_toList {s : PathSet} : p ∈ s.toList ↔ s.get? p = some () := by
  unfold toList
  rw [List.mem_map]
  constructor
  · rintro ⟨⟨q, u⟩, h, rfl⟩
    exact mem_entries.mp h
  · exact fun h => ⟨(p, ()), mem_entries.mpr h, rfl⟩

lemma get?_ofList : (ofList paths).get? p = some () ↔ p ∈ paths := by
  unfold ofList
  suffices ∀ m : PathSet, (m.insertAll (paths.map (·, ()))).get? p = some () ↔
      m.get? p = some () ∨ p ∈ paths by
    rw [this ∅, get?_empty]
    simp
  induction paths with
  | nil => simp [insertAll]
  | cons q qs ih =>
    intro m
    rw [List.map_cons, show m.insertAll ((q, ()) :: qs.map (·, ())) =
      (m.insert q ()).insertAll (qs.map (·, ())) from rfl, ih, get?_insert, List.mem_cons]
    by_cases h : p = q <;> simp [h]

@[simp] lemma mem_ofList : p ∈ (ofList paths).toList ↔ p ∈ paths := mem_toList.trans get?_ofList

lemma toList_sorted (s : PathSet) : s.toList.Pairwise (· < ·) :=
  List.pairwise_map.mpr s.sorted

end PathSet

/-! ## Prolly trees -/

/-- The children of the nodes that a lookup finds. -/
def childrenOf (lookup : Id → Option (Node Id)) (id : Id) : List Id :=
  match lookup id with
  | none => []
  | some node => node.children

/-- **Prolly trees as persistent finite maps.** A map has a tree, whose nodes are kept under
their digests; reading a tree looks at the nodes below its root only, and gives the map back
when they are all there. -/
structure Prolly (env : Env Id) where
  root : Contents Id → Root Id
  nodes : Contents Id → List (Node Id)
  /-- All of a tree (`range`, `prefix`). -/
  load : (Id → Option (Node Id)) → Root Id → Except Error (Contents Id)
  /-- One binding. -/
  get : (Id → Option (Node Id)) → Root Id → TreeKey → Except Error (Option (TreeValue Id))
  diff : Contents Id → Contents Id → List (Diff TreeKey (TreeValue Id))
  batch : Contents Id → List (Mutation TreeKey (TreeValue Id)) → Contents Id
  /-- Trees differ where their maps differ. -/
  diff_eq : ∀ m n, diff m n = OrdMap.diff m n
  /-- Mutations are made one after the other. -/
  batch_eq : ∀ m ms, batch m ms = m.batch ms
  root_empty : root ∅ = none
  root_mem : ∀ m r, root m = some r → ∃ n ∈ nodes m, env.nodeDigest n = r
  child_mem : ∀ m, ∀ n ∈ nodes m, ∀ c ∈ n.children, ∃ n' ∈ nodes m, env.nodeDigest n' = c
  keys_sorted : ∀ m, ∀ n ∈ nodes m, strictlySorted n.keys = true
  blob_mem : ∀ m, ∀ n ∈ nodes m, ∀ r ∈ n.blobRefs, ∃ k, m.get? k = some (.chunk r)
  load_root : ∀ lookup m, (∀ n ∈ nodes m, lookup (env.nodeDigest n) = some n) →
    load lookup (root m) = .ok m
  get_load : ∀ lookup r m, load lookup r = .ok m → ∀ k, get lookup r k = .ok (m.get? k)
  /-- A tree is read whole. -/
  load_present : ∀ lookup r m, load lookup r = .ok m → ∀ id,
    Worklist.Reach (childrenOf lookup) (r = some ·) id → (lookup id).isSome
  load_chunk : ∀ lookup r m, load lookup r = .ok m → ∀ k b, m.get? k = some (.chunk b) →
    ∃ id node, Worklist.Reach (childrenOf lookup) (r = some ·) id ∧ lookup id = some node ∧
      b ∈ node.blobRefs
  load_congr : ∀ lookup lookup' r,
    (∀ id, Worklist.Reach (childrenOf lookup) (r = some ·) id → lookup id = lookup' id) →
    load lookup r = load lookup' r
  get_congr : ∀ lookup lookup' r,
    (∀ id, Worklist.Reach (childrenOf lookup) (r = some ·) id → lookup id = lookup' id) →
    get lookup r = get lookup' r

/-! ## Comparing trees -/

inductive VersionPathChangeKind where
  | added | modified | deleted
  deriving DecidableEq, Repr

structure VersionPathChange where
  path : String
  change : VersionPathChangeKind
  deriving DecidableEq, Repr

/-- What the kind of a difference is called. -/
def rawChange {α : Type} : OrdMap.Diff TreeKey α → VersionPathChangeKind
  | .added .. => .added
  | .removed .. => .deleted
  | .changed .. => .modified

/-- Fold a difference into the changes of its path: what happened to the metadata, and whether
the contents changed. -/
def foldChange (paths : OrdMap String (Option VersionPathChangeKind × Bool))
    (d : OrdMap.Diff TreeKey (TreeValue Id)) :
    Except Error (OrdMap String (Option VersionPathChangeKind × Bool)) :=
  match versionPathFromTreeKey d.key with
  | .error e => .error e
  | .ok (path, metadata) =>
    let entry := (paths.get? path).getD (none, false)
    .ok (paths.insert path (if metadata then (some (rawChange d), entry.2) else (entry.1, true)))

/-- `diff_trees` -/
def diffTrees {env : Env Id} (P : Prolly env) (old new : Contents Id) :
    Except Error (List VersionPathChange) :=
  match (P.diff old new).foldlM foldChange ∅ with
  | .error e => .error e
  | .ok paths => .ok (paths.entries.filterMap fun e =>
    (e.2.1.or (if e.2.2 then some .modified else none)).map fun change => ⟨e.1, change⟩)

end SlateFs.Version
