import SlateFs.Version.Status

/-!
# Restoring the live file system from a version

A restore compares the live tree with a version, removes what must go, and writes the
versioned entries back. The plan is made path by path: in an exact restore every added path
is deleted, and in both modes a path that changed its kind is removed before it is
restored. But a removal takes the whole live subtree, and a restore writes the whole
versioned subtree below the outermost changed paths.

The two fit together only if nothing unplanned is below a removed path: a versioned tree
may hold a path without the directories above it, and a directory that a version replaces
by a file may have live entries of its own.
-/

namespace SlateFs.Version

open Live

inductive VersionRestoreMode where
  | overlay | exact
  deriving DecidableEq, Repr

inductive VersionRestoreActionKind where
  | create | replace | delete
  deriving DecidableEq, Repr

structure VersionRestoreAction where
  path : String
  action : VersionRestoreActionKind
  deriving DecidableEq, Repr

/-- What the token of a preview is the digest of. -/
structure VersionRestorePlanFingerprint (Id : Type) where
  commit : Id
  root : String
  mode : VersionRestoreMode
  liveFingerprint : Bytes
  actions : List VersionRestoreAction
  deriving DecidableEq

/-- The digests of a live subtree and of a plan. -/
structure RestoreHash (Id T : Type) where
  fingerprint : List (String × NodeView) → Bytes
  token : VersionRestorePlanFingerprint Id → T

structure VersionRestorePreview (Id T : Type) where
  reference : String
  commit : Id
  root : String
  mode : VersionRestoreMode
  token : T
  actions : List VersionRestoreAction

/-- What is planned for a change. -/
def restoreAction (mode : VersionRestoreMode) (c : VersionWorkingTreeChange) :
    Option VersionRestoreAction :=
  match c.change, mode with
  | .added, .overlay => none
  | .added, .exact => some ⟨c.path, .delete⟩
  | .deleted, _ => some ⟨c.path, .create⟩
  | .modified, _ => some ⟨c.path, .replace⟩
  | .typeChanged, _ => some ⟨c.path, .replace⟩

section

variable {Id T : Type} [ObjectId Id] {env : Env Id}

/-- `preview_restore` -/
def previewRestore (P : Prolly env) (H : RestoreHash Id T) (chunkSize : Nat) (s : Store Id)
    (live : Live) (reference root : String) (mode : VersionRestoreMode) :
    Except Error (VersionRestorePreview Id T) := do
  let status ← workingTreeStatus P chunkSize s live reference root
  let actions := status.changes.filterMap (restoreAction mode)
  let entries ← live.scanLiveSubtree status.root
  let fingerprint := H.fingerprint (entries.entries.map fun e => (e.1, e.2.view))
  let token := H.token ⟨status.commit, status.root, mode, fingerprint, actions⟩
  return ⟨status.reference, status.commit, status.root, mode, token, actions⟩

end

/-! ## Removing -/

namespace Live

/-- The directories above a path, one after the other. -/
def resolveParents (live : Live) (dir : LiveNode) (path : LivePath) :
    List (List Char) → Except Error LivePath
  | [] => .ok path
  | c :: cs =>
    match live.lookup dir path c with
    | .error e => .error (fsError e)
    | .ok child =>
      if child.isDir then live.resolveParents child (path ++ [textName c]) cs
      else .error (invalidPath "parent is not a directory")

/-- `resolve_parent` -/
def resolveParent (live : Live) (path : String) : Except Error (LivePath × List Char) :=
  match (pathComponents path).getLast?, live.nodes.get? [] with
  | none, _ => .error (invalidPath "root cannot be versioned as a file")
  | some _, none => .error (fsError .stale)
  | some name, some root => do
      let parent ← live.resolveParents root [] (pathComponents path).dropLast
      return (parent, name)

/-- Deeper paths first, and later paths first among those of one depth. -/
def removalOrder (a b : String) : Bool :=
  (pathComponents b).length < (pathComponents a).length ||
    ((pathComponents a).length = (pathComponents b).length && b ≤ a)

/-- Remove one path of a subtree. -/
def removePath (now : Timespec) (live : Live) (e : String × LiveNode) : Except Error Live := do
  let (parent, name) ← live.resolveParent e.1
  (live.removeEntry now parent name e.2.isDir).mapError fsError

/-- `remove_live_subtree` -/
def removeLiveSubtree (now : Timespec) (live : Live) (root : String) : Except Error Live := do
  let entries ← live.scanLiveSubtree root
  (entries.entries.insertionSort fun a b => removalOrder a.1 b.1).foldlM (removePath now) live

end Live

/-! ## Restoring -/

section

variable {Id : Type} [ObjectId Id] {env : Env Id}

/-- Read a versioned file piece by piece: what is read so far is followed by the next piece. -/
def readPieces (P : Prolly env) (chunkSize : Nat) (s : Objects Id) (tree : Root Id) (path : String)
    (size : Nat) : Nat → Bytes → Except Error Bytes
  | 0, contents => .ok contents
  | fuel + 1, contents =>
    if contents.length < size then do
      let range ← readTree P chunkSize s tree path contents.length chunkSize
      refuseIf (range.data = []) (.versioning s!"versioned contents for {path} did not advance")
      readPieces P chunkSize s tree path size fuel (contents ++ range.data)
    else .ok contents

/-- A file of a given size: cut, or filled with zeros. -/
def resize (contents : Bytes) (size : Nat) : Bytes :=
  contents.take size ++ List.replicate (size - contents.length) 0

variable (P : Prolly env) (chunkSize : Nat) (s : Objects Id) (tree : Root Id) (now : Timespec)
  (live : Live)

/-- What a restored file holds: the pieces that are written, and then the size that is set. A
piece has a byte at least, so there are no more pieces than bytes. -/
def restoredContents (path : String) (size : Nat) : Except Error Bytes := do
  let contents ← readPieces P chunkSize s tree path size size []
  return resize contents size

/-- `restore_regular_file` -/
def restoreRegularFile (path : String) (metadata : VersionEntry) :
    Except Error Live := do
  let (parent, name) ← live.resolveParent path
  let contents ← restoredContents P chunkSize s tree path metadata.size
  (live.renameStaged now parent name ⟨metadata.mode % 0o10000, metadata.uid, metadata.gid,
    metadata.atime, metadata.mtime, .file contents⟩).mapError fsError

/-- `restore_symlink_entry`: a new link has mode 0o777. -/
def restoreSymlinkEntry (path : String) (metadata : VersionEntry) (target : Bytes) :
    Except Error Live := do
  let (parent, name) ← live.resolveParent path
  refuseIf (target.length = 0 ∨ target.length > 4096) (fsError .invalid)
  (live.renameStaged now parent name ⟨0o777, metadata.uid, metadata.gid, metadata.atime,
    metadata.mtime, .symlink target⟩).mapError fsError

/-- `restore_directory_entry` -/
def restoreDirectoryEntry (path : String) (metadata : VersionEntry) : Except Error Live :=
  match live.resolvePathOptional path with
  | .error e => .error e
  | .ok (some node) =>
    if node.isDir then (live.setDirectory (location path) metadata).mapError fsError
    else .error (.invalid "restore path" s!"{path} exists and is not a directory")
  | .ok none => do
      let (parent, name) ← live.resolveParent path
      let made ← (live.mkdir now parent name ⟨metadata.mode % 0o10000, 0, 0, now, now,
        .directory⟩).mapError fsError
      (made.setDirectory (parent ++ [textName name]) metadata).mapError fsError

def restoreEntry (e : String × VersionEntry) : Except Error Live :=
  match e.2.data with
  | .directory => restoreDirectoryEntry now live e.1 e.2
  | .file _ => restoreRegularFile P chunkSize s tree now live e.1 e.2
  | .symlink target => restoreSymlinkEntry now live e.1 e.2 target

/-- `restore_file`: a path with all that is versioned below it -/
def restoreFile (path : String) : Except Error Live := do
  let canonical ← canonicalPath path
  let m ← P.load s.nodes.get? tree
  let entries ← versionedEntries m canonical
  refuseIf ((entries.get? canonical).isNone) (.notFound "versioned path" canonical)
  entries.entries.foldlM (restoreEntry P chunkSize s tree now) live

structure VersionRestoreApplyInfo (Id T : Type) where
  reference : String
  commit : Id
  root : String
  mode : VersionRestoreMode
  token : T
  actions : List VersionRestoreAction
  atomic : Bool

/-- The outermost of the paths to restore. -/
def restorePaths (candidates : List String) : Except Error (List String) :=
  if candidates.isEmpty then .ok [] else canonicalizePathSet candidates

/-- What is removed: the paths to delete and those of another kind, deepest first. -/
def removalPaths (actions : List VersionRestoreAction) (changes : List VersionWorkingTreeChange) :
    List String :=
  (PathSet.ofList ((actions.filter fun a => a.action = .delete).map (·.path) ++
    (changes.filter fun c => c.change = .typeChanged).map (·.path))).toList.insertionSort
      fun a b => Live.removalOrder a b

/-- `apply_restore`; the text of a commit's id stands for the commit. -/
def applyRestore {T : Type} [DecidableEq T] (H : RestoreHash Id T) (chunkSize : Nat) (s : Store Id)
    (now : Timespec) (live : Live) (reference root : String) (mode : VersionRestoreMode)
    (token : T) :
    Except Error (VersionRestoreApplyInfo Id T × Live) := do
  let preview ← previewRestore P H chunkSize s live reference root mode
  refuseIf (preview.token ≠ token)
    (.versioning "restore preview is stale; generate a new preview before applying")
  let commit ← s.getCommit preview.commit
  let changes ← treeChanges P chunkSize s.toObjects commit.tree live preview.root
  let removed ← (removalPaths preview.actions changes).foldlM (Live.removeLiveSubtree now) live
  let paths ← restorePaths ((preview.actions.filter fun a => a.action ≠ .delete).map (·.path))
  let restored ← paths.foldlM (restoreFile P chunkSize s.toObjects commit.tree now) removed
  return (⟨preview.reference, preview.commit, preview.root, preview.mode, preview.token,
    preview.actions, false⟩, restored)

end

/-! ## What is removed -/

namespace Live

variable {live live' live'' : Live} {now : Timespec}

lemma resolveParents_ok : ∀ {cs : List (List Char)} {dir : LiveNode} {p parent : LivePath},
    live.resolveParents dir p cs = .ok parent → parent = p ++ cs.map textName
  | [], _, p, parent, h => by
    cases h
    rw [List.map_nil, List.append_nil]
  | c :: cs, _, p, parent, h => by
    unfold resolveParents at h
    split at h
    · cases h
    split at h
    · rw [resolveParents_ok h, List.map_cons, List.append_assoc]
      rfl
    · cases h

variable {path : String}

lemma resolveParent_ok {parent : LivePath} {name : List Char}
    (h : live.resolveParent path = .ok (parent, name)) :
    location path = parent ++ [textName name] := by
  unfold resolveParent at h
  split at h
  · cases h
  · cases h
  rename_i last root hlast _
  obtain ⟨parent', hparent, ⟨⟩⟩ := bind_eq_ok.mp h
  rw [resolveParents_ok hparent, List.nil_append]
  have hsplit := List.dropLast_append_getLast? _ hlast
  unfold location
  conv_lhs => rw [← hsplit]
  rw [List.map_append]
  rfl

/-- Some paths are gone and the others are as they were. -/
structure Removed (S : LivePath → Prop) (live live' : Live) : Prop where
  gone : ∀ q, S q → live'.view q = none
  kept : ∀ q, ¬S q → live'.view q = live.view q

lemma Removed.trans {S S' : LivePath → Prop} (h : Removed S live live')
    (h' : Removed S' live' live'') : Removed (fun q => S q ∨ S' q) live live'' where
  gone q hq := by
    by_cases hq' : S' q
    · exact h'.gone q hq'
    · rw [h'.kept q hq', h.gone q (hq.resolve_right hq')]
  kept q hq := by
    rw [h'.kept q fun hq' => hq (.inr hq'), h.kept q fun hq' => hq (.inl hq')]

lemma Removed.of_present {S S' : LivePath → Prop} (h : Removed S live live')
    (hsub : ∀ q, S q → S' q) (hpresent : ∀ q, S' q → (live.nodes.get? q).isSome → S q) :
    Removed S' live live' where
  gone q hq := by
    by_cases hS : S q
    · exact h.gone q hS
    · rw [h.kept q hS, ← Option.not_isSome_iff_eq_none, isSome_view]
      exact fun hsome => hS (hpresent q hq hsome)
  kept q hq := h.kept q fun hS => hq (hsub q hS)

lemma removePath_ok {e : String × LiveNode} (h : removePath now live e = .ok live') :
    Removed (· = location e.1) live live' := by
  obtain ⟨⟨parent, name⟩, hparent, h⟩ := bind_eq_ok.mp h
  have hview := removeEntry_ok (mapError_eq_ok.mp h)
  rw [← resolveParent_ok hparent] at hview
  exact ⟨fun q hq => by rw [hview, if_pos hq], fun q hq => by rw [hview, if_neg hq]⟩

/-- The fold over removals, of single paths or of subtrees. -/
lemma removed_fold {α : Type} {f : Live → α → Except Error Live} {S : α → LivePath → Prop} :
    ∀ {xs : List α} {live live' : Live},
      (∀ x ∈ xs, ∀ {live live' : Live}, f live x = .ok live' → Removed (S x) live live') →
      xs.foldlM f live = .ok live' → Removed (fun q => ∃ x ∈ xs, S x q) live live'
  | [], _, _, _, h => by
    cases h
    exact ⟨fun q ⟨_, hx, _⟩ => absurd hx List.not_mem_nil, fun _ _ => rfl⟩
  | x :: xs, _, _, hf, h => by
    obtain ⟨middle, hx, h⟩ := bind_eq_ok.mp h
    have hboth := (hf x List.mem_cons_self hx).trans
      (removed_fold (fun y hy => hf y (List.mem_cons_of_mem _ hy)) h)
    refine ⟨fun q hq => hboth.gone q ?_, fun q hq => hboth.kept q fun hq' => hq ?_⟩
    · simpa using hq
    · simpa using hq'

lemma statusRoot_of_canonical (h : Canonical path) : StatusRoot path := by
  obtain ⟨cs, -, hcs, rfl⟩ := h
  exact ⟨cs, hcs, rfl⟩

/-- **A removal takes a whole subtree.** -/
theorem removeLiveSubtree_ok (hpath : Canonical path)
    (h : removeLiveSubtree now live path = .ok live') :
    Removed (location path <+: ·) live live' := by
  obtain ⟨entries, hentries, h⟩ := bind_eq_ok.mp h
  have hroot := statusRoot_of_canonical hpath
  obtain ⟨hscan, hget⟩ := scanLiveSubtree_ok hroot hentries
  have hremoved := removed_fold (S := fun e q => q = location e.1) (fun _ _ => removePath_ok) h
  refine hremoved.of_present (fun q hq => ?_) (fun q hq hsome => ?_)
  · obtain ⟨e, he, rfl⟩ := hq
    have hmem : entries.get? e.1 = some e.2 :=
      OrdMap.mem_entries.mp ((List.mem_insertionSort _).mp he)
    rw [hget, Option.ite_none_right_eq_some, node?_eq_some] at hmem
    exact (hroot.within_iff hmem.2.1).mp hmem.1
  · -- what is there was scanned
    have hne : q ≠ [] := by
      rintro rfl
      exact location_ne hpath (List.prefix_nil.mp hq)
    obtain ⟨text, hcanonical, rfl⟩ := hscan.exists_canonical hq hsome hne
    obtain ⟨node, hnode⟩ := Option.isSome_iff_exists.mp hsome
    refine ⟨(text, node), (List.mem_insertionSort _).mpr (OrdMap.mem_entries.mpr ?_), rfl⟩
    rw [hget, if_pos ((hroot.within_iff hcanonical).mpr hq)]
    exact node?_eq_some.mpr ⟨hcanonical, hnode⟩

lemma removeSubtrees_ok {paths : List String} (hpaths : ∀ path ∈ paths, Canonical path)
    (h : paths.foldlM (removeLiveSubtree now) live = .ok live') :
    Removed (fun q => ∃ path ∈ paths, location path <+: q) live live' :=
  removed_fold (fun path hpath => removeLiveSubtree_ok (hpaths path hpath)) h

end Live

/-! ## What is restored -/

def VersionEntry.isDir (e : VersionEntry) : Bool := e.data = .directory

section

variable {Id : Type} [ObjectId Id] {env : Env Id} {P : Prolly env} {chunkSize : Nat}
  {s : Objects Id} {tree : Root Id} {now : Timespec} {live live' live'' : Live}

/-- How a restored entry is seen. -/
def restoredView (P : Prolly env) (chunkSize : Nat) (s : Objects Id) (tree : Root Id)
    (path : String) (e : VersionEntry) : Except Error NodeView :=
  match e.data with
  | .directory => .ok ⟨e.mode % 0o10000, e.uid, e.gid, .directory⟩
  | .symlink target => .ok ⟨0o777, e.uid, e.gid, .symlink target⟩
  | .file _ => do
      let contents ← restoredContents P chunkSize s tree path e.size
      return ⟨e.mode % 0o10000, e.uid, e.gid, .file contents⟩

variable {path : String} {e : String × VersionEntry} {m : Contents Id}

lemma restoredView_isDir {e : VersionEntry} {v : NodeView}
    (h : restoredView P chunkSize s tree path e = .ok v) : v.isDir = e.isDir := by
  unfold restoredView at h
  unfold NodeView.isDir VersionEntry.isDir
  split at h
  · rename_i hd
    cases h
    simp [hd]
  · rename_i hd
    cases h
    simp [hd]
  · rename_i hd
    obtain ⟨contents, -, ⟨⟩⟩ := bind_eq_ok.mp h
    simp [hd]

/-- A node of the kind that was there, if any, is now seen at a path. -/
structure Written (live live' : Live) (p : LivePath) (v : NodeView) : Prop where
  view : ∀ q, live'.view q = if q = p then some v else live.view q
  was : ∀ old, live.view p = some old → old.isDir = v.isDir

lemma Live.Placed.written {parent : LivePath} {name : List Char} {node : LiveNode}
    (h : Placed live live' parent name node) (hnode : node.isDir = false) :
    Written live live' (parent ++ [textName name]) node.view :=
  ⟨h.view, fun old hold => (h.was old hold).trans hnode.symm⟩

lemma restoreDirectoryEntry_ok {e : VersionEntry}
    (h : restoreDirectoryEntry now live path e = .ok live') :
    Written live live' (location path) ⟨e.mode % 0o10000, e.uid, e.gid, .directory⟩ := by
  unfold restoreDirectoryEntry at h
  split at h
  · cases h
  · rename_i node hnode
    split at h
    · rename_i hdir
      obtain ⟨v, hv, hview⟩ := setDirectory_ok (mapError_eq_ok.mp h)
      have hsome : some node = live.nodes.get? (location path) := resolvePathOptional_eq hnode
      have hvdata : v.data = .directory := by
        rw [view, ← hsome] at hv
        cases hv
        exact of_decide_eq_true hdir
      refine ⟨fun q => by rw [hview, hvdata], fun old hold => ?_⟩
      rw [hv] at hold
      cases hold
      simp [NodeView.isDir, hvdata]
    · cases h
  · rename_i hnone
    simp only [bind_eq_ok] at h
    obtain ⟨⟨parent, name⟩, hparent, made, hmade, h⟩ := h
    have hplaced := mkdir_ok (mapError_eq_ok.mp hmade)
    obtain ⟨v, hv, hview⟩ := setDirectory_ok (mapError_eq_ok.mp h)
    rw [← resolveParent_ok hparent] at hv hview
    have hmadeView := hplaced.view
    rw [← resolveParent_ok hparent] at hmadeView
    rw [hmadeView, if_pos rfl] at hv
    cases hv
    refine ⟨fun q => ?_, fun old hold => ?_⟩
    · rw [hview]
      split
      · rfl
      · rename_i hne
        rw [hmadeView, if_neg hne]
    · have : none = live.nodes.get? (location path) := resolvePathOptional_eq hnone
      rw [view, ← this] at hold
      cases hold

/-- **What restoring an entry does.** -/
theorem restoreEntry_ok (h : restoreEntry P chunkSize s tree now live e = .ok live') :
    ∃ v, restoredView P chunkSize s tree e.1 e.2 = .ok v ∧ Written live live' (location e.1) v := by
  unfold restoreEntry at h
  unfold restoredView
  split at h
  · rename_i hd
    rw [hd]
    exact ⟨_, rfl, restoreDirectoryEntry_ok h⟩
  · rename_i count hd
    rw [hd]
    unfold restoreRegularFile at h
    simp only [bind_eq_ok] at h
    obtain ⟨⟨parent, name⟩, hparent, contents, hcontents, h⟩ := h
    refine ⟨_, bind_eq_ok.mpr ⟨contents, hcontents, rfl⟩, ?_⟩
    rw [resolveParent_ok hparent]
    exact (renameStaged_ok (mapError_eq_ok.mp h)).written rfl
  · rename_i target hd
    rw [hd]
    unfold restoreSymlinkEntry at h
    simp only [↓then_eq_ok, bind_eq_ok] at h
    obtain ⟨⟨parent, name⟩, hparent, -, h⟩ := h
    refine ⟨_, rfl, ?_⟩
    rw [resolveParent_ok hparent]
    exact (renameStaged_ok (mapError_eq_ok.mp h)).written rfl

/-- No two entries have one place. -/
def Apart (E : String → VersionEntry → Prop) : Prop :=
  ∀ path e path' e', E path e → E path' e' → location path = location path' →
    path = path' ∧ e = e'

/-- Some entries were restored: nothing went away or changed between a directory and another
kind, and what is not the place of an entry is as it was. -/
structure Restored (P : Prolly env) (chunkSize : Nat) (s : Objects Id) (tree : Root Id)
    (E : String → VersionEntry → Prop) (live live' : Live) : Prop where
  keeps : ∀ q v, live.view q = some v → ∃ w, live'.view q = some w ∧ w.isDir = v.isDir
  placed : ∀ path e, E path e → ∃ w, live'.view (location path) = some w ∧ w.isDir = e.isDir
  frame : ∀ q, (∀ path e, E path e → location path ≠ q) → live'.view q = live.view q
  image : Apart E → ∀ path e, E path e → ∃ v,
    restoredView P chunkSize s tree path e = .ok v ∧ live'.view (location path) = some v

lemma Restored.of_iff {E E' : String → VersionEntry → Prop}
    (h : Restored P chunkSize s tree E live live') (hiff : ∀ path e, E' path e ↔ E path e) :
    Restored P chunkSize s tree E' live live' := by
  have hsame : E' = E := funext fun path => funext fun e => propext (hiff path e)
  exact hsame ▸ h

lemma Restored.trans {E E' : String → VersionEntry → Prop}
    (h : Restored P chunkSize s tree E live live')
    (h' : Restored P chunkSize s tree E' live' live'') :
    Restored P chunkSize s tree (fun path e => E path e ∨ E' path e) live live'' where
  keeps q v hv := by
    obtain ⟨w, hw, hdir⟩ := h.keeps q v hv
    obtain ⟨x, hx, hdir'⟩ := h'.keeps q w hw
    exact ⟨x, hx, hdir'.trans hdir⟩
  placed path e he := by
    rcases he with he | he
    · obtain ⟨w, hw, hdir⟩ := h.placed path e he
      obtain ⟨x, hx, hdir'⟩ := h'.keeps _ w hw
      exact ⟨x, hx, hdir'.trans hdir⟩
    · exact h'.placed path e he
  frame q hq := by
    rw [h'.frame q fun path e he => hq path e (.inr he),
      h.frame q fun path e he => hq path e (.inl he)]
  image hapart path e he := by
    have hleft : Apart E := fun _ _ _ _ h1 h2 => hapart _ _ _ _ (.inl h1) (.inl h2)
    have hright : Apart E' := fun _ _ _ _ h1 h2 => hapart _ _ _ _ (.inr h1) (.inr h2)
    by_cases he' : E' path e
    · exact h'.image hright path e he'
    -- no later entry has this place
    obtain ⟨v, hv, hview⟩ := h.image hleft path e (he.resolve_right he')
    refine ⟨v, hv, ?_⟩
    rw [h'.frame _ fun path' e'' h2 heq => ?_, hview]
    obtain ⟨rfl, rfl⟩ := hapart _ _ _ _ (.inr h2) he heq
    exact he' h2

lemma restored_entry (h : restoreEntry P chunkSize s tree now live e = .ok live') :
    Restored P chunkSize s tree (fun path e' => e = (path, e')) live live' := by
  obtain ⟨v, hv, hwritten⟩ := restoreEntry_ok h
  have hplace : live'.view (location e.1) = some v := by rw [hwritten.view, if_pos rfl]
  refine ⟨fun q w hw => ?_, fun path e' he => ?_, fun q hq => ?_, fun _ path e' he => ?_⟩
  · rw [hwritten.view]
    split
    · rename_i heq
      exact ⟨v, rfl, (hwritten.was w (heq ▸ hw)).symm⟩
    · exact ⟨w, hw, rfl⟩
  · subst he
    exact ⟨v, hplace, restoredView_isDir hv⟩
  · rw [hwritten.view, if_neg fun heq => hq e.1 e.2 rfl heq.symm]
  · subst he
    exact ⟨v, hv, hplace⟩

/-- The fold over restores, of entries or of whole paths. -/
lemma restored_fold {α : Type} {f : Live → α → Except Error Live}
    {E : α → String → VersionEntry → Prop} : ∀ {xs : List α} {live live' : Live},
      (∀ x ∈ xs, ∀ {live live' : Live}, f live x = .ok live' →
        Restored P chunkSize s tree (E x) live live') →
      xs.foldlM f live = .ok live' →
        Restored P chunkSize s tree (fun path e => ∃ x ∈ xs, E x path e) live live'
  | [], _, _, _, h => by
    cases h
    refine ⟨fun q v hv => ⟨v, hv, rfl⟩, fun path e he => ?_, fun _ _ => rfl, fun _ path e he => ?_⟩
    · simp at he
    · simp at he
  | x :: xs, _, _, hf, h => by
    obtain ⟨middle, hx, h⟩ := bind_eq_ok.mp h
    have hboth := (hf x List.mem_cons_self hx).trans
      (restored_fold (fun y hy => hf y (List.mem_cons_of_mem _ hy)) h)
    exact hboth.of_iff fun path e => List.exists_mem_cons_iff ..

/-- **A restore writes the whole versioned subtree of a path.** -/
theorem restoreFile_ok (hload : P.load s.nodes.get? tree = .ok m) {r : String} (hr : Canonical r)
    (h : restoreFile P chunkSize s tree now live r = .ok live') :
    Restored P chunkSize s tree
      (fun path e => pathIsWithin path r = true ∧ entryAt m path = some e) live live' := by
  unfold restoreFile at h
  simp only [↓then_eq_ok, bind_eq_ok] at h
  obtain ⟨_, hcanonical, m', hload', entries, hentries, -, h⟩ := h
  rw [hr.path_eq] at hcanonical
  cases hcanonical
  rw [hload] at hload'
  cases hload'
  have hget := (versionedEntries_ok hentries).2
  have hall := restored_fold (E := fun x path e => x = (path, e)) (fun _ _ => restored_entry) h
  refine hall.of_iff fun path e => ?_
  have hmem : (path, e) ∈ entries.entries ↔ _ := OrdMap.mem_entries
  rw [hget, Option.ite_none_right_eq_some] at hmem
  rw [← hmem]
  refine ⟨fun h => ⟨_, h, rfl⟩, ?_⟩
  rintro ⟨_, h, rfl⟩
  exact h

lemma restoreFiles_ok (hload : P.load s.nodes.get? tree = .ok m) {paths : List String}
    (hpaths : ∀ r ∈ paths, Canonical r)
    (h : paths.foldlM (restoreFile P chunkSize s tree now) live = .ok live') :
    Restored P chunkSize s tree
      (fun path e => (∃ r ∈ paths, pathIsWithin path r = true) ∧ entryAt m path = some e)
      live live' := by
  have hall := restored_fold
    (E := fun r path e => pathIsWithin path r = true ∧ entryAt m path = some e)
    (fun r hr => restoreFile_ok hload (hpaths r hr)) h
  exact hall.of_iff fun path e => by simp only [← exists_and_right, and_assoc]

end

end SlateFs.Version
