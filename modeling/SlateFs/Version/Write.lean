import SlateFs.Version.Live

/-!
# Changing the live file system

A restore changes the live tree with a handful of operations: it removes files, links and
empty directories, makes directories, sets their attributes, and renames files and links
that it has staged next to their place. A staged file has a fresh name and only the rename
shows, so both are one step here.

Comparisons with a version look at the kind, the mode, the owner and the contents of a
node and not at its times. This is the view of a node.
-/

namespace SlateFs.Version

open OrdMap

/-- What a comparison looks at. -/
structure NodeView where
  mode : Nat
  uid : Nat
  gid : Nat
  data : LiveData
  deriving DecidableEq, Repr

def LiveNode.view (n : LiveNode) : NodeView := ⟨n.mode, n.uid, n.gid, n.data⟩

def NodeView.isDir (v : NodeView) : Bool := v.data = .directory

namespace Live

/-- The tree as comparisons see it. -/
def view (live : Live) (p : LivePath) : Option NodeView := (live.nodes.get? p).map LiveNode.view

/-- A node may stand at a path. -/
structure Fits (live : Live) (p : LivePath) (v : LiveNode) : Prop where
  parent : ∀ q n, p = q ++ [n] → ∃ d, live.nodes.get? q = some d ∧ d.isDir = true
  children : ∀ n, (live.nodes.get? (p ++ [n])).isSome → v.isDir = true
  root : p = [] → v.isDir = true
  name : ∀ q c, p = q ++ [textName c] → FileName c

def setNode (live : Live) (p : LivePath) (v : LiveNode) (h : live.Fits p v) : Live where
  nodes := live.nodes.insert p v
  chunkSize := live.chunkSize
  shaped := live.shaped.insert h.parent h.children h.root
  named q c hsome := by
    rw [get?_insert] at hsome
    split at hsome
    · rename_i heq
      exact h.name q c heq.symm
    · exact live.named q c hsome
  chunked := live.chunked

/-- Another node of the same kind may stand where a node is. -/
lemma fits_of_present {live : Live} {p : LivePath} {v w : LiveNode}
    (hv : live.nodes.get? p = some v) (hdir : w.isDir = v.isDir) : live.Fits p w where
  parent q n hp := live.shaped.parent q n v (hp ▸ hv)
  children n hn := by
    obtain ⟨x, hx⟩ := Option.isSome_iff_exists.mp hn
    obtain ⟨d, hd, hdir'⟩ := live.shaped.parent p n x hx
    rw [hv] at hd
    cases hd
    rw [hdir, hdir']
  root hp := by
    obtain ⟨d, hd, hdir'⟩ := live.shaped.root
    rw [hp, hd] at hv
    cases hv
    rw [hdir, hdir']
  name q c hp := live.named q c (by rw [← hp, hv]; rfl)

/-- A directory changed. -/
def touch (live : Live) (now : Timespec) (p : LivePath) : Live :=
  match h : live.nodes.get? p with
  | none => live
  | some d => live.setNode p { d with mtime := now } (fits_of_present h rfl)

/-- Any node may stand in a directory, unless there is a directory already. -/
lemma fits_entry {live : Live} {parent : LivePath} {name : List Char} {d v : LiveNode}
    (hname : isFileName name = true) (hd : live.nodes.get? parent = some d) (hdir : d.isDir = true)
    (hold : ∀ old, live.nodes.get? (parent ++ [textName name]) = some old → old.isDir = false) :
    live.Fits (parent ++ [textName name]) v where
  parent q n hp := by
    obtain ⟨rfl, -⟩ := List.append_inj' hp rfl
    exact ⟨d, hd, hdir⟩
  children n hn := by
    rw [live.shaped.below hold (by simp)] at hn
    cases hn
  root hp := by simp at hp
  name q c hp := by
    obtain ⟨-, hc⟩ := List.append_inj' hp rfl
    cases textName_injective (List.cons.inj hc).1
    exact isFileName_iff.mp hname

/-- What `validate_name` says of a name it does not accept. -/
def nameProblem (name : List Char) : FsError :=
  if (String.ofList name).utf8ByteSize > MAX_NAME_LEN then .nameTooLong else .invalid

/-- A new directory (`mkdir`). -/
def mkdir (live : Live) (now : Timespec) (parent : LivePath) (name : List Char) (node : LiveNode) :
    Except FsError Live :=
  if hname : isFileName name = true then
    match hd : live.nodes.get? parent with
    | none => .error .stale
    | some d =>
      if hdir : d.isDir = true then
        match ho : live.nodes.get? (parent ++ [textName name]) with
        | some _ => .error .exists
        | none => .ok ((live.setNode (parent ++ [textName name]) node
            (fits_entry hname hd hdir (by rw [ho]; nofun))).touch now parent)
      else .error .notDir
  else .error (nameProblem name)

/-- A staged node takes a name (`rename`). -/
def renameStaged (live : Live) (now : Timespec) (parent : LivePath) (name : List Char)
    (node : LiveNode) : Except FsError Live :=
  if hname : isFileName name = true then
    match hd : live.nodes.get? parent with
    | none => .error .stale
    | some d =>
      if hdir : d.isDir = true then
        if ho : (live.nodes.get? (parent ++ [textName name])).any LiveNode.isDir then .error .isDir
        else .ok ((live.setNode (parent ++ [textName name]) node
          (fits_entry hname hd hdir (by
            intro old hold
            rw [hold] at ho
            simpa using ho))).touch now parent)
      else .error .notDir
  else .error (nameProblem name)

/-- The mode, the owner and the times of a directory (`setattr`). -/
def setDirectory (live : Live) (p : LivePath) (entry : VersionEntry) : Except FsError Live :=
  match h : live.nodes.get? p with
  | none => .error .stale
  | some d => .ok (live.setNode p { d with
      mode := entry.mode % 0o10000, uid := entry.uid, gid := entry.gid, atime := entry.atime,
      mtime := entry.mtime } (fits_of_present h rfl))

/-- Take a node away that has nothing below it. -/
def eraseNode (live : Live) (p : LivePath) (hne : p ≠ [])
    (hleaf : ∀ n, live.nodes.get? (p ++ [n]) = none) : Live where
  nodes := live.nodes.erase p
  chunkSize := live.chunkSize
  shaped := live.shaped.erase hne hleaf
  named q c hsome := by
    obtain ⟨v, hv⟩ := Option.isSome_iff_exists.mp hsome
    exact live.named q c (by rw [get?_of_get?_erase hv]; rfl)
  chunked := live.chunked

/-- `unlink` and `rmdir` -/
def removeEntry (live : Live) (now : Timespec) (parent : LivePath) (name : List Char)
    (directory : Bool) : Except FsError Live :=
  if isFileName name = false then .error (nameProblem name)
  else
    match live.nodes.get? (parent ++ [textName name]) with
    | none => .error .notFound
    | some node =>
      if directory = true ∧ node.isDir = false then .error .notDir
      else if directory = false ∧ node.isDir = true then .error .isDir
      else if hleaf : PathTree.children live.nodes (parent ++ [textName name]) = [] then
        .ok ((live.eraseNode (parent ++ [textName name]) (by simp) (by
          intro n
          cases hn : live.nodes.get? (parent ++ [textName name] ++ [n]) with
          | none => rfl
          | some v =>
            have := PathTree.mem_children.mpr ⟨⟨n, rfl⟩, by rw [hn]; rfl⟩
            rw [hleaf] at this
            cases this)).touch now parent)
      else .error .notEmpty

/-! ## What the operations do to the view -/

variable {live live' : Live} {now : Timespec} {parent p : LivePath} {name : List Char}
  {node : LiveNode}

lemma view_setNode {h : live.Fits p node} (q : LivePath) :
    (live.setNode p node h).view q = if q = p then some node.view else live.view q := by
  unfold view setNode
  rw [get?_insert]
  split <;> rfl

@[simp] lemma view_touch (q : LivePath) : (live.touch now p).view q = live.view q := by
  unfold touch
  split
  · rfl
  rename_i d hd
  rw [view_setNode]
  split
  · rename_i heq
    rw [heq, view, hd]
    rfl
  · rfl

lemma view_isDir {v : NodeView} (h : live.view p = some v) :
    ∃ n, live.nodes.get? p = some n ∧ n.isDir = v.isDir ∧ n.view = v := by
  obtain ⟨n, hn, rfl⟩ := Option.map_eq_some_iff.mp h
  exact ⟨n, hn, rfl, rfl⟩

lemma isSome_view : (live.view p).isSome = (live.nodes.get? p).isSome := by
  unfold view
  rw [Option.isSome_map]

/-- A node was put in a directory. -/
structure Placed (live live' : Live) (parent : LivePath) (name : List Char) (node : LiveNode) :
    Prop where
  view : ∀ q, live'.view q =
    if q = parent ++ [textName name] then some node.view else live.view q
  was : ∀ old, live.view (parent ++ [textName name]) = some old → old.isDir = false

lemma mkdir_ok (h : live.mkdir now parent name node = .ok live') :
    Placed live live' parent name node := by
  unfold mkdir at h
  split at h
  · split at h
    · cases h
    split at h
    · split at h
      · cases h
      rename_i hnone
      cases h
      refine ⟨fun q => by rw [view_touch, view_setNode], fun old hold => ?_⟩
      rw [Live.view, hnone] at hold
      cases hold
    · cases h
  · cases h

lemma renameStaged_ok (h : live.renameStaged now parent name node = .ok live') :
    Placed live live' parent name node := by
  unfold renameStaged at h
  split at h
  · split at h
    · cases h
    split at h
    · split at h
      · cases h
      rename_i hdir
      cases h
      refine ⟨fun q => by rw [view_touch, view_setNode], fun old hold => ?_⟩
      obtain ⟨n, hn, hsame, -⟩ := view_isDir hold
      rw [hn] at hdir
      rw [← hsame]
      simpa using hdir
    · cases h
  · cases h

lemma setDirectory_ok {entry : VersionEntry} (h : live.setDirectory p entry = .ok live') :
    ∃ v, live.view p = some v ∧ ∀ q, live'.view q =
      if q = p then some ⟨entry.mode % 0o10000, entry.uid, entry.gid, v.data⟩ else live.view q := by
  unfold setDirectory at h
  split at h
  · cases h
  rename_i d hd
  cases h
  refine ⟨d.view, by rw [view, hd]; rfl, fun q => ?_⟩
  rw [view_setNode]
  rfl

lemma removeEntry_ok {directory : Bool}
    (h : live.removeEntry now parent name directory = .ok live') (q : LivePath) :
    live'.view q = if q = parent ++ [textName name] then none else live.view q := by
  unfold removeEntry at h
  split at h
  · cases h
  split at h
  · cases h
  split at h
  · cases h
  split at h
  · cases h
  split at h
  · cases h
    rw [view_touch]
    unfold view eraseNode
    rw [get?_erase]
    split <;> rfl
  · cases h

end Live

end SlateFs.Version
