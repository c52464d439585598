import SlateFs.Version.Tree
import SlateFs.Lib.PathTree

/-!
# The live file system, as versioning sees it

Versioning reads the live file system through paths. Here it is a tree of nodes kept by
path, in which a directory lists its entries by name; what the source reads in several
pages is read at once, and a file is its bytes. Names need not be UTF-8; those that are
not cannot be versioned.

Capturing a subtree (`capture_subtree`) walks it with a stack and records, for every
node, its metadata and the chunks of a file. What is captured before an error is kept
apart from the error, because the chunks have been stored by then.
-/

namespace SlateFs

/-- What an error of the file system is called. -/
def FsError.text : FsError → String
  | .notPermitted => "EPERM: operation not permitted"
  | .notFound => "ENOENT: no such file or directory"
  | .io => "EIO: I/O error"
  | .badHandle => "EBADF: bad file handle"
  | .wouldBlock => "EAGAIN: lock unavailable"
  | .accessDenied => "EACCES: permission denied"
  | .exists => "EEXIST: file exists"
  | .crossDevice => "EXDEV: cross-device link"
  | .notDir => "ENOTDIR: not a directory"
  | .isDir => "EISDIR: is a directory"
  | .invalid => "EINVAL: invalid argument"
  | .fileTooBig => "EFBIG: file too large"
  | .noSpace => "ENOSPC: no space left on device"
  | .tooManyLinks => "EMLINK: too many links"
  | .nameTooLong => "ENAMETOOLONG: file name too long"
  | .notEmpty => "ENOTEMPTY: directory not empty"
  | .noData => "ENODATA: no such attribute"
  | .notSupported => "ENOTSUP: operation not supported"
  | .stale => "ESTALE: stale file handle"
  | .quotaExceeded => "EDQUOT: disk quota exceeded"
  | .readOnly => "EROFS: read-only filesystem"

namespace Version

/-- `fs_error` -/
def fsError (e : FsError) : Error := .versioning e.text

/-! ## Nodes and paths -/

/-- A name in a directory: a text, or the bytes of a name that is not UTF-8. -/
abbrev LiveName := Lex (List Char ⊕ Bytes)

abbrev LivePath := List LiveName

def textName (c : List Char) : LiveName := toLex (.inl c)

def nameText (n : LiveName) : Option (List Char) :=
  match ofLex n with
  | .inl c => some c
  | .inr _ => none

/-- The text of a path, if all its names are texts. -/
def pathText (p : LivePath) : Option String := (p.mapM nameText).map absolute

/-- Where a versioned path is in the live tree. -/
def location (path : String) : LivePath := (pathComponents path).map textName

inductive SpecialKind where
  | fifo | socket | charDev | blockDev
  deriving DecidableEq, Repr

def SpecialKind.debug : SpecialKind → String
  | .fifo => "Fifo"
  | .socket => "Socket"
  | .charDev => "CharDev"
  | .blockDev => "BlockDev"

inductive LiveData where
  | file (contents : Bytes)
  | directory
  | symlink (target : Bytes)
  | special (kind : SpecialKind)
  deriving DecidableEq, Repr

structure LiveNode where
  mode : Nat
  uid : Nat
  gid : Nat
  atime : Timespec
  mtime : Timespec
  data : LiveData
  deriving DecidableEq, Repr

namespace LiveNode

def isDir (n : LiveNode) : Bool := n.data = .directory

def size (n : LiveNode) : Nat :=
  match n.data with
  | .file contents => contents.length
  | .symlink target => target.length
  | .directory | .special _ => 0

end LiveNode

/-- What `validate_name` accepts. -/
structure FileName (c : List Char) : Prop extends Component c where
  short : (String.ofList c).utf8ByteSize ≤ MAX_NAME_LEN

/-- A live file system. -/
structure Live where
  nodes : OrdMap LivePath LiveNode
  chunkSize : Nat
  shaped : PathTree.Shaped LiveNode.isDir nodes
  named : ∀ p c, (nodes.get? (p ++ [textName c])).isSome → FileName c
  chunked : 0 < chunkSize

namespace Live

/-- `lookup` in a directory -/
def lookup (live : Live) (dir : LiveNode) (parent : LivePath) (name : List Char) :
    Except FsError LiveNode :=
  if !dir.isDir then .error .notDir
  else if (String.ofList name).utf8ByteSize > MAX_NAME_LEN then .error .nameTooLong
  else
    match live.nodes.get? (parent ++ [textName name]) with
    | none => .error .notFound
    | some node => .ok node

/-- Look up one component after the other. -/
def resolveFrom (live : Live) (node : LiveNode) (path : LivePath) :
    List (List Char) → Except Error (Option LiveNode)
  | [] => .ok (some node)
  | c :: cs =>
    match live.lookup node path c with
    | .ok child => live.resolveFrom child (path ++ [textName c]) cs
    | .error .notFound => .ok none
    | .error e => .error (fsError e)

/-- `resolve_path_optional` -/
def resolvePathOptional (live : Live) (path : String) : Except Error (Option LiveNode) :=
  match live.nodes.get? [] with
  | none => .error (fsError .stale)
  | some root => live.resolveFrom root [] (pathComponents path)

/-! ## Capturing -/

/-- The chunk size of versioned files. -/
def versionChunkSize (live : Live) : Nat := min live.chunkSize (2 ^ 32 - 1)

end Live

/-- The metadata of a node. -/
def LiveNode.entry (n : LiveNode) (data : VersionEntryData) : VersionEntry :=
  ⟨n.mode, n.uid, n.gid, n.size, n.atime, n.mtime, data⟩

def chunkCount (size chunkSize : Nat) : Nat := (size + chunkSize - 1) / chunkSize

def chunkBytes (contents : Bytes) (chunkSize index : Nat) : Bytes :=
  (contents.drop (index * chunkSize)).take chunkSize

/-- A captured piece: a chunk, which is stored as a blob, or metadata. -/
inductive Capture where
  | chunk (path : String) (index : Nat) (bytes : Bytes)
  | entry (path : String) (metadata : VersionEntry)
  deriving DecidableEq

section

variable {Id : Type} [ObjectId Id]

def blobRefOf (env : Env Id) (bytes : Bytes) : BlobRef Id := ⟨env.blobDigest bytes, bytes.length⟩

namespace Capture

def key : Capture → TreeKey
  | chunk path index _ => fileChunkKey path index
  | entry path _ => fileMetaKey path

def value (env : Env Id) : Capture → TreeValue Id
  | chunk _ _ bytes => .chunk (blobRefOf env bytes)
  | entry _ metadata => .entry metadata

/-- What is stored along the way. -/
def blob : Capture → Option Bytes
  | chunk _ _ bytes => some bytes
  | entry _ _ => none

end Capture

end

namespace Live

/-- What `capture_subtree` records for a node; a name that is no text fails its directory. -/
def captureNode (live : Live) (p : LivePath) : Except Error (List Capture) :=
  match pathText p, live.nodes.get? p with
  | some path, some node =>
    match node.data with
    | .file contents =>
      let count := chunkCount contents.length live.versionChunkSize
      if count ≥ 2 ^ 32 then .error (.invalid "versioned file" "too many chunks")
      else .ok ((List.range count).map (fun i =>
          .chunk path i (chunkBytes contents live.versionChunkSize i)) ++
        [.entry path (node.entry (.file count))])
    | .directory =>
      if (PathTree.children live.nodes p).any fun c => (pathText c).isNone then
        .error (invalidPath s!"{path} contains a non-UTF-8 name")
      else .ok [.entry path (node.entry .directory)]
    | .symlink target => .ok [.entry path (node.entry (.symlink target))]
    | .special kind => .error (invalidPath s!"unsupported file kind {kind.debug} at {path}")
  | _, _ => .error (invalidPath "contains a non-UTF-8 name")

/-- Capture one node after the other, up to the first error. -/
def captureAll (live : Live) : List LivePath → List Capture × Except Error Unit
  | [] => ([], .ok ())
  | p :: ps =>
    match live.captureNode p with
    | .error e => ([], .error e)
    | .ok cs => (cs ++ (live.captureAll ps).1, (live.captureAll ps).2)

/-- `capture_subtree` -/
def captureSubtree (live : Live) (path : String) : List Capture × Except Error Unit :=
  live.captureAll (PathTree.subtree live.nodes (location path))

/-- Capture the selected paths that exist. -/
def capturePaths (live : Live) : List String → List Capture × Except Error Unit
  | [] => ([], .ok ())
  | path :: paths =>
    match live.resolvePathOptional path with
    | .error e => ([], .error e)
    | .ok none => live.capturePaths paths
    | .ok (some _) =>
      match live.captureSubtree path with
      | (cs, .error e) => (cs, .error e)
      | (cs, .ok ()) => (cs ++ (live.capturePaths paths).1, (live.capturePaths paths).2)

end Live

/-! ## What is captured -/

lemma nameText_eq_some {n : LiveName} {c : List Char} : nameText n = some c ↔ n = textName c := by
  rcases n with c' | b
  · exact ⟨fun h => by cases h; rfl, fun h => by cases h; rfl⟩
  · exact ⟨nofun, nofun⟩

lemma textName_injective : Function.Injective textName := fun _ _ h => by
  cases h
  rfl

variable {p : LivePath}

lemma mapM_nameText : ∀ {cs : List (List Char)},
    p.mapM nameText = some cs ↔ p = cs.map textName := by
  induction p with
  | nil =>
    intro cs
    cases cs <;> simp
  | cons n p ih =>
    intro cs
    rw [List.mapM_cons]
    cases cs with
    | nil => cases nameText n <;> cases p.mapM nameText <;> simp
    | cons c cs =>
      rw [List.map_cons, List.cons.injEq, ← ih, ← nameText_eq_some]
      cases nameText n <;> cases p.mapM nameText <;> simp

lemma pathText_eq_some {path : String} :
    pathText p = some path ↔ ∃ cs : List (List Char), p = cs.map textName ∧ path = absolute cs := by
  unfold pathText
  rw [Option.map_eq_some_iff]
  constructor
  · rintro ⟨cs, hcs, rfl⟩
    exact ⟨cs, mapM_nameText.mp hcs, rfl⟩
  · rintro ⟨cs, rfl, rfl⟩
    exact ⟨cs, mapM_nameText.mpr rfl, rfl⟩

namespace Live

variable {live : Live}
variable {cs : List (List Char)} {p : LivePath} {c : List Char}

lemma fileName_of_mem (h : (live.nodes.get? (cs.map textName)).isSome) :
    ∀ c ∈ cs, FileName c := by
  intro c hc
  obtain ⟨before, after, rfl⟩ := List.append_of_mem hc
  refine live.named (before.map textName) c (live.shaped.present ?_ h)
  exact ⟨after.map textName, by simp⟩

/-- A versioned path in the live tree. -/
def node? (live : Live) (path : String) : Option LiveNode :=
  if isCanonical path then live.nodes.get? (location path) else none

lemma node?_eq_some {path : String} {node : LiveNode} : live.node? path = some node ↔
    Canonical path ∧ live.nodes.get? (location path) = some node := by
  rw [node?, Option.ite_none_right_eq_some, isCanonical_iff]

lemma location_absolute (h : ∀ c ∈ cs, Component c) :
    location (absolute cs) = cs.map textName := by
  rw [location, pathComponents_absolute h]

lemma lookup_ok {dir child : LiveNode} (h : live.lookup dir p c = .ok child) :
    live.nodes.get? (p ++ [textName c]) = some child := by
  unfold lookup at h
  split at h
  · cases h
  split at h
  · cases h
  split at h
  · cases h
  · cases h
    assumption

lemma lookup_notFound {dir : LiveNode} (h : live.lookup dir p c = .error .notFound) :
    live.nodes.get? (p ++ [textName c]) = none := by
  unfold lookup at h
  split at h
  · cases h
  split at h
  · cases h
  split at h
  · assumption
  · cases h

lemma resolveFrom_eq : ∀ {cs : List (List Char)} {p : LivePath} {node : LiveNode}
    {r : Option LiveNode}, live.nodes.get? p = some node →
    live.resolveFrom node p cs = .ok r → r = live.nodes.get? (p ++ cs.map textName)
  | [], p, node, r, hp, h => by
    cases h
    rw [List.map_nil, List.append_nil, hp]
  | c :: cs, p, node, r, hp, h => by
    rw [resolveFrom] at h
    rw [List.map_cons, List.append_cons]
    split at h
    · rename_i child hl
      exact resolveFrom_eq (lookup_ok hl) h
    · rename_i hl
      cases h
      -- below a missing path there is nothing
      symm
      rw [← Option.not_isSome_iff_eq_none]
      intro hsome
      have := live.shaped.present (List.prefix_append ..) hsome
      rw [lookup_notFound hl] at this
      cases this
    · cases h

lemma resolvePathOptional_eq {path : String} {r : Option LiveNode}
    (h : live.resolvePathOptional path = .ok r) : r = live.nodes.get? (location path) := by
  unfold resolvePathOptional at h
  split at h
  · cases h
  · rename_i root hroot
    exact resolveFrom_eq hroot h

end Live

/-- The path that a key is made of. -/
def keyText (key : TreeKey) : String :=
  match ofLex key with
  | .inl chunk => (ofLex chunk).1
  | .inr path => path

/-- How a node is versioned. -/
def LiveNode.versionData (n : LiveNode) (chunkSize : Nat) : Option VersionEntryData :=
  match n.data with
  | .file contents => some (.file (chunkCount contents.length chunkSize))
  | .directory => some .directory
  | .symlink target => some (.symlink target)
  | .special _ => none

/-- The chunk of a node at an index. -/
def LiveNode.chunk? (n : LiveNode) (chunkSize index : Nat) : Option Bytes :=
  match n.data with
  | .file contents =>
    if index * chunkSize < contents.length then some (chunkBytes contents chunkSize index)
    else none
  | _ => none

namespace Live

variable {Id : Type} [ObjectId Id] {live : Live}

/-- **The live tree as a versioned one**: the metadata and the chunks of every path. -/
def content (env : Env Id) (live : Live) (key : TreeKey) : Option (TreeValue Id) :=
  match ofLex key with
  | .inl chunk => (live.node? (ofLex chunk).1).bind fun node =>
    (node.chunk? live.versionChunkSize (ofLex chunk).2).map (.chunk <| blobRefOf env ·)
  | .inr path => (live.node? path).bind fun node =>
    (node.versionData live.versionChunkSize).map (.entry <| node.entry ·)

lemma versionChunkSize_pos (live : Live) : 0 < live.versionChunkSize := by
  have := live.chunked
  unfold versionChunkSize
  omega

lemma lt_chunkCount {size chunkSize index : Nat} (h : 0 < chunkSize) :
    index < chunkCount size chunkSize ↔ index * chunkSize < size := by
  unfold chunkCount
  rw [Nat.lt_iff_add_one_le, Nat.le_div_iff_mul_le h, Nat.add_mul]
  omega

variable {cs : List (List Char)} {captures : List Capture} {k : TreeKey} {v : TreeValue Id}
  {env : Env Id}

lemma captureNode_ok (h : live.captureNode (cs.map textName) = .ok captures) :
    ∃ node data, live.nodes.get? (cs.map textName) = some node ∧
      node.versionData live.versionChunkSize = some data ∧
      ∀ c, c ∈ captures ↔ (∃ i bytes, node.chunk? live.versionChunkSize i = some bytes ∧
        c = .chunk (absolute cs) i bytes) ∨ c = .entry (absolute cs) (node.entry data) := by
  unfold captureNode at h
  rw [pathText_eq_some.mpr ⟨cs, rfl, rfl⟩] at h
  cases hn : live.nodes.get? (cs.map textName) with
  | none =>
    rw [hn] at h
    cases h
  | some node =>
    rw [hn] at h
    unfold LiveNode.versionData LiveNode.chunk?
    cases hd : node.data with
    | file contents =>
      simp only [hd] at h
      split at h
      · cases h
      cases h
      refine ⟨node, _, rfl, by rw [hd], fun c => ?_⟩
      simp only [hd, List.mem_append, List.mem_map, List.mem_range, List.mem_singleton,
        Option.ite_none_right_eq_some, Option.some.injEq]
      refine or_congr_left ⟨?_, ?_⟩
      · rintro ⟨i, hi, rfl⟩
        exact ⟨i, _, ⟨(lt_chunkCount live.versionChunkSize_pos).mp hi, rfl⟩, rfl⟩
      · rintro ⟨i, _, ⟨hi, rfl⟩, rfl⟩
        exact ⟨i, (lt_chunkCount live.versionChunkSize_pos).mpr hi, rfl⟩
    | directory =>
      simp only [hd] at h
      split at h
      · cases h
      · cases h
        exact ⟨node, _, rfl, by rw [hd], fun c => by simp [hd]⟩
    | symlink target =>
      simp only [hd] at h
      cases h
      exact ⟨node, _, rfl, by rw [hd], fun c => by simp [hd]⟩
    | special kind =>
      simp only [hd] at h
      cases h

/-- **What is captured of a node is what the live tree has there.** -/
theorem captureNode_spec (env : Env Id) (hne : cs ≠ [])
    (h : live.captureNode (cs.map textName) = .ok captures) :
    (∃ c ∈ captures, c.key = k ∧ c.value env = v) ↔
      keyText k = absolute cs ∧ live.content env k = some v := by
  obtain ⟨node, data, hget, hdata, hmem⟩ := captureNode_ok h
  have hnode : live.node? (absolute cs) = some node := by
    have hcs : ∀ c ∈ cs, Component c :=
      fun c hc => (fileName_of_mem (by rw [hget]; rfl) c hc).toComponent
    exact node?_eq_some.mpr ⟨⟨cs, hne, hcs, rfl⟩, by rw [location_absolute hcs, hget]⟩
  constructor
  · rintro ⟨c, hc, rfl, rfl⟩
    rcases (hmem c).mp hc with ⟨i, bytes, hb, rfl⟩ | rfl
    · refine ⟨rfl, ?_⟩
      show (live.node? (absolute cs)).bind _ = _
      rw [hnode, Option.bind_some]
      show (node.chunk? live.versionChunkSize i).map _ = _
      rw [hb]
      rfl
    · refine ⟨rfl, ?_⟩
      show (live.node? (absolute cs)).bind _ = _
      rw [hnode, Option.bind_some, hdata]
      rfl
  · rintro ⟨hk, hv⟩
    rcases key_cases k with ⟨path, i, rfl⟩ | ⟨path, rfl⟩
    · cases (show path = absolute cs from hk)
      have : ((live.node? (absolute cs)).bind fun node =>
        (node.chunk? live.versionChunkSize i).map (.chunk <| blobRefOf env ·)) = some v := hv
      rw [hnode, Option.bind_some, Option.map_eq_some_iff] at this
      obtain ⟨bytes, hb, rfl⟩ := this
      exact ⟨.chunk _ i bytes, (hmem _).mpr (.inl ⟨i, bytes, hb, rfl⟩), rfl, rfl⟩
    · cases (show path = absolute cs from hk)
      have : ((live.node? (absolute cs)).bind fun node =>
        (node.versionData live.versionChunkSize).map (.entry <| node.entry ·)) = some v := hv
      rw [hnode, Option.bind_some, hdata] at this
      cases this
      exact ⟨.entry _ _, (hmem _).mpr (.inr rfl), rfl, rfl⟩

lemma captureNode_text {p : LivePath} (h : live.captureNode p = .ok captures) :
    ∃ cs : List (List Char), p = cs.map textName := by
  unfold captureNode at h
  cases ht : pathText p with
  | none =>
    rw [ht] at h
    cases h
  | some path =>
    obtain ⟨cs, rfl, -⟩ := pathText_eq_some.mp ht
    exact ⟨cs, rfl⟩

lemma captureAll_ok : ∀ {ps : List LivePath} {captures : List Capture},
    live.captureAll ps = (captures, .ok ()) →
      (∀ p ∈ ps, ∃ cs, live.captureNode p = .ok cs) ∧
      ∀ c, c ∈ captures ↔ ∃ p ∈ ps, ∃ cs, live.captureNode p = .ok cs ∧ c ∈ cs
  | [], captures, h => by
    cases h
    simp
  | p :: ps, captures, h => by
    rw [captureAll] at h
    split at h
    · cases h
    rename_i cs hcs
    obtain ⟨rfl, hrest⟩ := Prod.mk.inj h
    obtain ⟨hall, hmem⟩ := captureAll_ok (Prod.ext rfl hrest)
    refine ⟨?_, fun c => ?_⟩
    · intro q hq
      rcases List.mem_cons.mp hq with rfl | hq
      · exact ⟨cs, hcs⟩
      · exact hall q hq
    · rw [List.mem_append, hmem, List.exists_mem_cons_iff, hcs]
      simp

/-- What the live tree has at a key is at a present path. -/
lemma present_of_content (h : live.content env k = some v) :
    ∃ cs : List (List Char), cs ≠ [] ∧ (∀ c ∈ cs, Component c) ∧ keyText k = absolute cs ∧
      (live.nodes.get? (cs.map textName)).isSome := by
  have hnode : ∃ node, live.node? (keyText k) = some node := by
    rcases key_cases k with ⟨path, i, rfl⟩ | ⟨path, rfl⟩
    · obtain ⟨node, hn, -⟩ := Option.bind_eq_some_iff.mp h
      exact ⟨node, hn⟩
    · obtain ⟨node, hn, -⟩ := Option.bind_eq_some_iff.mp h
      exact ⟨node, hn⟩
  obtain ⟨node, hn⟩ := hnode
  obtain ⟨⟨cs, hne, hcs, hk⟩, hget⟩ := node?_eq_some.mp hn
  rw [hk, location_absolute hcs] at hget
  exact ⟨cs, hne, hcs, hk, by rw [hget]; rfl⟩

lemma keyPath_of_content (h : live.content env k = some v) : (keyPath k).1 = keyText k := by
  obtain ⟨cs, hne, hcs, hk, -⟩ := present_of_content h
  rcases key_cases k with ⟨path, i, rfl⟩ | ⟨path, rfl⟩
  · have hpath : path = absolute cs := hk
    rw [keyPath_fileChunkKey (Canonical.no_nul ⟨cs, hne, hcs, hpath⟩)]
    rfl
  · rfl

lemma prefix_textName {ds : List (List Char)} :
    ds.map textName <+: cs.map textName ↔ ds <+: cs := by
  constructor
  · rintro ⟨r, hr⟩
    obtain ⟨xs, ys, rfl, hx, -⟩ := List.map_eq_append_iff.mp hr.symm
    rw [List.map_injective_iff.mpr textName_injective hx]
    exact List.prefix_append ..
  · exact fun h => h.map textName

/-- **What is captured of a path is what the live tree has inside it.** -/
theorem captureSubtree_spec (env : Env Id) {path : String} (hpath : Canonical path)
    (hpresent : (live.nodes.get? (location path)).isSome)
    (h : live.captureSubtree path = (captures, .ok ())) :
    (∃ c ∈ captures, c.key = k ∧ c.value env = v) ↔
      pathIsWithin (keyText k) path = true ∧ live.content env k = some v := by
  obtain ⟨ds, hne, hds, rfl⟩ := hpath
  unfold captureSubtree at h
  rw [location_absolute hds] at h hpresent
  obtain ⟨hall, hmem⟩ := captureAll_ok h
  constructor
  · rintro ⟨c, hc, hkv⟩
    obtain ⟨p, hp, pieces, hpieces, hc⟩ := (hmem c).mp hc
    obtain ⟨hunder, hsome⟩ := (PathTree.mem_subtree live.shaped hpresent).mp hp
    obtain ⟨cs, rfl⟩ := captureNode_text hpieces
    have hcs := fun c hc => (fileName_of_mem hsome c hc).toComponent
    have hcne : cs ≠ [] := fun h => hne (by simpa [h] using hunder)
    obtain ⟨hk, hv⟩ := (captureNode_spec env hcne hpieces).mp ⟨c, hc, hkv⟩
    rw [hk, pathIsWithin_absolute hcs hds]
    exact ⟨prefix_textName.mp hunder, hv⟩
  · rintro ⟨hin, hv⟩
    obtain ⟨cs, hcne, hcs, hk, hsome⟩ := present_of_content hv
    rw [hk, pathIsWithin_absolute hcs hds] at hin
    have hp := (PathTree.mem_subtree live.shaped hpresent).mpr ⟨prefix_textName.mpr hin, hsome⟩
    obtain ⟨pieces, hpieces⟩ := hall _ hp
    obtain ⟨c, hc, hkv⟩ := (captureNode_spec env hcne hpieces).mpr ⟨hk, hv⟩
    exact ⟨c, (hmem c).mpr ⟨_, hp, pieces, hpieces, hc⟩, hkv⟩

/-- **What a commit captures is what the live tree has inside the selected paths.** -/
theorem capturePaths_spec (env : Env Id) : ∀ {paths : List String} {captures : List Capture},
    (∀ p ∈ paths, Canonical p) → live.capturePaths paths = (captures, .ok ()) →
    ∀ {k : TreeKey} {v : TreeValue Id}, (∃ c ∈ captures, c.key = k ∧ c.value env = v) ↔
      (∃ p ∈ paths, pathIsWithin (keyText k) p = true) ∧ live.content env k = some v
  | [], captures, _, h, k, v => by
    cases h
    simp
  | path :: paths, captures, hcan, h, k, v => by
    have hpath := hcan path (List.mem_cons_self ..)
    have hrest := fun p hp => hcan p (List.mem_cons_of_mem _ hp)
    rw [capturePaths] at h
    rw [List.exists_mem_cons_iff, or_and_right]
    split at h
    · cases h
    · rename_i hnone
      rw [capturePaths_spec env hrest h, or_iff_right]
      -- nothing is inside a path that does not exist
      rintro ⟨hin, hv⟩
      obtain ⟨cs, hcne, hcs, hk, hsome⟩ := present_of_content hv
      obtain ⟨ds, hne, hds, rfl⟩ := hpath
      rw [hk, pathIsWithin_absolute hcs hds] at hin
      have := live.shaped.present (prefix_textName.mpr hin) hsome
      rw [← location_absolute hds, ← resolvePathOptional_eq hnone] at this
      cases this
    · rename_i node hnode
      have hpresent : (live.nodes.get? (location path)).isSome := by
        rw [← resolvePathOptional_eq hnode]
        rfl
      split at h
      · cases h
      rename_i pieces hpieces
      obtain ⟨rfl, hok⟩ := Prod.mk.inj h
      rw [← captureSubtree_spec env hpath hpresent hpieces,
        ← capturePaths_spec env hrest (Prod.ext rfl hok)]
      simp only [List.mem_append, or_and_right, exists_or]

/-! ## Small live trees -/

/-- The names that `validate_name` accepts, as a check. -/
def isFileName (c : List Char) : Bool :=
  c ≠ [] && !c.contains '/' && !c.contains '\x00' && c ≠ ['.'] && c ≠ ['.', '.'] &&
    (String.ofList c).utf8ByteSize ≤ MAX_NAME_LEN

lemma isFileName_iff {c : List Char} : isFileName c = true ↔ FileName c := by
  unfold isFileName
  simp only [Bool.and_eq_true, decide_eq_true_eq, Bool.not_eq_true', ne_eq]
  constructor
  · rintro ⟨⟨⟨⟨⟨h1, h2⟩, h3⟩, h4⟩, h5⟩, h6⟩
    exact ⟨⟨h1, by simpa using h2, by simpa using h3, h4, h5⟩, h6⟩
  · rintro ⟨⟨h1, h2, h3, h4, h5⟩, h6⟩
    exact ⟨⟨⟨⟨⟨h1, by simpa using h2⟩, by simpa using h3⟩, h4⟩, h5⟩, h6⟩

/-- The invariants of a live tree, as a check. -/
def check (nodes : OrdMap LivePath LiveNode) (chunkSize : Nat) : Bool :=
  0 < chunkSize && (nodes.get? []).any LiveNode.isDir && nodes.entries.all fun e =>
    e.1 = [] || ((nodes.get? e.1.dropLast).any LiveNode.isDir &&
      (e.1.getLast?.bind nameText).all isFileName)

lemma exists_of_any {α : Type} {p : α → Bool} {o : Option α} (h : o.any p = true) :
    ∃ a, o = some a ∧ p a = true := by
  cases o with
  | none => cases h
  | some a => exact ⟨a, rfl, h⟩

/-- A live tree from nodes that pass the check. -/
def ofNodes (nodes : OrdMap LivePath LiveNode) (chunkSize : Nat)
    (h : check nodes chunkSize = true) : Live :=
  have h' : (0 < chunkSize ∧ (nodes.get? []).any LiveNode.isDir = true) ∧
      nodes.entries.all (fun e => e.1 = [] || ((nodes.get? e.1.dropLast).any LiveNode.isDir &&
        (e.1.getLast?.bind nameText).all isFileName)) = true := by
    unfold check at h
    simpa only [Bool.and_eq_true, decide_eq_true_eq] using h
  have hall : ∀ p n v, nodes.get? (p ++ [n]) = some v →
      (nodes.get? p).any LiveNode.isDir = true ∧ (nameText n).all isFileName = true := by
    intro p n v hv
    have := List.all_eq_true.mp h'.2 _ (OrdMap.mem_entries.mpr hv)
    simpa using this
  { nodes
    chunkSize
    shaped := by
      refine ⟨?_, fun p n v hv => ?_⟩
      · exact exists_of_any h'.1.2
      · exact exists_of_any (hall p n v hv).1
    named := by
      intro p c hsome
      obtain ⟨v, hv⟩ := Option.isSome_iff_exists.mp hsome
      exact isFileName_iff.mp (hall p (textName c) v hv).2
    chunked := h'.1.1 }

end Live

end Version

end SlateFs
