import SlateFs.Version.Read
import SlateFs.Version.Write

/-!
# Comparing the live file system with a version

`working_tree_status` lists the paths below a root at which the live tree and the tree of
a commit differ: live paths that are not versioned (added), versioned paths that are not
live (deleted), paths of another kind, and paths whose metadata or contents differ
(modified).

The comparison looks at one path at a time, and at the view of its live node only.
-/

namespace SlateFs.Version

open OrdMap PathTree

inductive VersionWorkingTreeChangeKind where
  | added | modified | deleted | typeChanged
  deriving DecidableEq, Repr

structure VersionWorkingTreeChange where
  path : String
  change : VersionWorkingTreeChangeKind
  deriving DecidableEq, Repr

structure VersionWorkingTreeStatus (Id : Type) where
  reference : String
  commit : Id
  root : String
  changes : List VersionWorkingTreeChange

/-- `canonical_status_root` -/
def canonicalStatusRoot (path : String) : Except Error String :=
  if (pathComponents path).isEmpty then .ok "/" else canonicalPath path

/-! ## The live side -/

namespace Live

/-- A directory whose entries are scanned must have texts for names. -/
def scanNode (live : Live) (p : LivePath) : Except Error Unit :=
  refuseIf ((PathTree.children live.nodes p).any fun c => (pathText c).isNone)
    (.invalid "working tree path" ((pathText p).getD "" ++ " contains a non-UTF-8 name"))

/-- What is recorded of a path. The root of the file system is not. -/
def scanEntry (live : Live) (p : LivePath) : Option (String × LiveNode) :=
  match pathText p, live.nodes.get? p with
  | some path, some node => if path = "/" then none else some (path, node)
  | _, _ => none

/-- `scan_live_subtree` -/
def scanLiveSubtree (live : Live) (root : String) : Except Error (OrdMap String LiveNode) :=
  match live.resolvePathOptional root with
  | .error e => .error e
  | .ok none => .ok ∅
  | .ok (some _) => do
      checkAll live.scanNode (PathTree.subtree live.nodes (location root))
      return insertAll ∅
        ((PathTree.subtree live.nodes (location root)).filterMap live.scanEntry)

end Live

/-! ## The versioned side -/

section

variable {Id : Type}

/-- The metadata of a path in a tree. -/
def entryAt (m : Contents Id) (path : String) : Option VersionEntry :=
  match m.get? (fileMetaKey path) with
  | some (.entry metadata) => some metadata
  | _ => none

/-- A metadata key below a root, with its value. -/
def metaBelow (root : String) (e : TreeKey × TreeValue Id) : Option (String × TreeValue Id) :=
  match ofLex e.1 with
  | .inr path => if pathIsWithin path root then some (path, e.2) else none
  | .inl _ => none

def decodeMeta : String × TreeValue Id → Except Error (String × VersionEntry)
  | (path, .entry metadata) => .ok (path, metadata)
  | (_, .chunk _) => .error .codec

/-- The metadata of the paths below a root, by path. -/
def versionedEntries (m : Contents Id) (root : String) :
    Except Error (OrdMap String VersionEntry) := do
  let entries ← (m.entries.filterMap (metaBelow root)).mapM decodeMeta
  return insertAll ∅ entries

end

/-! ## The comparison -/

/-- The paths of a map. -/
def pathsOf {α : Type} (m : OrdMap String α) : List String := m.entries.map (·.1)

variable {path : String}

lemma mem_pathsOf {α : Type} {m : OrdMap String α} : path ∈ pathsOf m ↔ (m.get? path).isSome := by
  rw [Option.isSome_iff_exists]
  constructor
  · intro h
    obtain ⟨e, he, rfl⟩ := List.mem_map.mp h
    exact ⟨e.2, mem_entries.mp he⟩
  · rintro ⟨v, hv⟩
    exact List.mem_map.mpr ⟨(path, v), mem_entries.mpr hv, rfl⟩

/-- `version_entry_kind_matches` -/
def versionEntryKindMatches : VersionEntryData → LiveData → Bool
  | .file _, .file _ | .directory, .directory | .symlink _, .symlink _ => true
  | _, _ => false

section

variable {Id : Type} [ObjectId Id]

/-- Compare the chunks of a file with the live bytes at their places. -/
def chunksMatch (env : Env Id) (s : Objects Id)
    (get : TreeKey → Except Error (Option (TreeValue Id))) (path : String) (chunkSize : Nat)
    (contents : Bytes) : List Nat → Except Error Bool
  | [] => .ok true
  | index :: rest => do
      let expected ← readChunk env s get path index
      refuseIf (expected.length ≥ 2 ^ 32) (.versioning s!"chunk {index} for {path} is too large")
      if (contents.drop (index * chunkSize)).take expected.length = expected then
        chunksMatch env s get path chunkSize contents rest
      else return false

/-- Compare the contents. -/
def dataMatches (env : Env Id) (s : Objects Id)
    (get : TreeKey → Except Error (Option (TreeValue Id))) (path : String) (chunkSize : Nat)
    (entry : VersionEntry) (data : LiveData) : Except Error Bool :=
  match entry.data, data with
  | .directory, _ => .ok true
  | .symlink target, .symlink live => .ok (live = target)
  | .symlink _, _ => .error (fsError .invalid)
  | .file count, .file contents => do
      refuseIf (chunkSize = 0) panicked
      refuseIf (chunkCount entry.size chunkSize ≠ count)
        (.versioning s!"versioned chunk count for {path} does not match its recorded size")
      chunksMatch env s get path chunkSize contents (List.range count)
  | .file _, _ => .error (fsError .invalid)

def NodeView.size (v : NodeView) : Nat :=
  match v.data with
  | .file contents => contents.length
  | .symlink target => target.length
  | .directory | .special _ => 0

/-- `version_entry_matches_live` -/
def versionEntryMatchesLive (env : Env Id) (s : Objects Id)
    (get : TreeKey → Except Error (Option (TreeValue Id))) (path : String) (chunkSize : Nat)
    (entry : VersionEntry) (v : NodeView) : Except Error Bool :=
  if entry.mode ≠ v.mode ∨ entry.uid ≠ v.uid ∨ entry.gid ≠ v.gid ∨ entry.size ≠ v.size then
    .ok false
  else dataMatches env s get path chunkSize entry v.data

/-- What happened to a path. -/
def pathChange (env : Env Id) (s : Objects Id)
    (get : TreeKey → Except Error (Option (TreeValue Id))) (chunkSize : Nat) (path : String) :
    Option VersionEntry → Option NodeView → Except Error (Option VersionWorkingTreeChangeKind)
  | none, none => .ok none
  | none, some _ => .ok (some .added)
  | some _, none => .ok (some .deleted)
  | some entry, some v =>
    if versionEntryKindMatches entry.data v.data then do
      let same ← versionEntryMatchesLive env s get path chunkSize entry v
      return if same then none else some .modified
    else .ok (some .typeChanged)

variable {env : Env Id}

/-- The changes below a root. -/
def treeChanges (P : Prolly env) (chunkSize : Nat) (s : Objects Id) (tree : Root Id) (live : Live)
    (root : String) : Except Error (List VersionWorkingTreeChange) := do
  let m ← P.load s.nodes.get? tree
  let versioned ← versionedEntries m root
  let liveEntries ← live.scanLiveSubtree root
  let paths := PathSet.ofList (pathsOf versioned ++ pathsOf liveEntries)
  let changes ← paths.toList.mapM fun path => do
    let change ← pathChange env s (P.get s.nodes.get? tree) chunkSize path (versioned.get? path)
      ((liveEntries.get? path).map LiveNode.view)
    return change.map fun change => (⟨path, change⟩ : VersionWorkingTreeChange)
  return changes.filterMap id

/-- `working_tree_status` -/
def workingTreeStatus (P : Prolly env) (chunkSize : Nat) (s : Store Id) (live : Live)
    (reference root : String) : Except Error (VersionWorkingTreeStatus Id) := do
  let commit ← s.resolveCommit reference
  let root ← canonicalStatusRoot root
  let changes ← treeChanges P chunkSize s.toObjects commit.tree live root
  return ⟨reference, commit.id, root, changes⟩

end

/-! ## What is scanned -/

/-- A root of a comparison: the root of the file system, or a canonical path. -/
def StatusRoot (root : String) : Prop :=
  ∃ ds : List (List Char), (∀ d ∈ ds, Component d) ∧ root = absolute ds

lemma canonicalStatusRoot_ok {root : String} (h : canonicalStatusRoot path = .ok root) :
    StatusRoot root := by
  unfold canonicalStatusRoot at h
  split at h
  · cases h
    exact ⟨[], nofun, rfl⟩
  · obtain ⟨ds, -, hds, rfl⟩ := canonical_of_ok h
    exact ⟨ds, hds, rfl⟩

/-- A canonical path is inside a root just when its place is below the root's. -/
lemma StatusRoot.within_iff {root : String} (hroot : StatusRoot root) (hpath : Canonical path) :
    pathIsWithin path root = true ↔ location root <+: location path := by
  obtain ⟨ds, hds, rfl⟩ := hroot
  obtain ⟨cs, -, hcs, rfl⟩ := hpath
  rw [pathIsWithin_absolute hcs hds, Live.location_absolute hcs, Live.location_absolute hds,
    Live.prefix_textName]

namespace Live

variable {live : Live} {root : String}

/-- The view of a versioned path. -/
def viewAt (live : Live) (path : String) : Option NodeView := (live.node? path).map LiveNode.view

variable {path : String} {p : LivePath}

lemma viewAt_of_canonical (h : Canonical path) :
    live.viewAt path = live.view (location path) := by
  unfold viewAt node?
  rw [if_pos (isCanonical_iff.mpr h)]
  rfl

lemma canonical_of_viewAt (h : (live.viewAt path).isSome) : Canonical path := by
  rw [viewAt, Option.isSome_map, Option.isSome_iff_exists] at h
  obtain ⟨node, h⟩ := h
  exact (node?_eq_some.mp h).1

/-- The text of a live path, other than the root, is canonical and stands for it. -/
lemma canonical_of_pathText (hp : (live.nodes.get? p).isSome) (htext : pathText p = some path)
    (hne : path ≠ "/") :
    Canonical path ∧ location path = p := by
  obtain ⟨cs, rfl, rfl⟩ := pathText_eq_some.mp htext
  have hcs : ∀ c ∈ cs, Component c := fun c hc => (fileName_of_mem hp c hc).toComponent
  refine ⟨⟨cs, ?_, hcs, rfl⟩, location_absolute hcs⟩
  rintro rfl
  exact hne rfl

lemma pathText_location (h : Canonical path) : pathText (location path) = some path := by
  obtain ⟨cs, -, hcs, rfl⟩ := h
  exact pathText_eq_some.mpr ⟨cs, location_absolute hcs, rfl⟩

/-- A subtree can be scanned: its root is looked up without an error, and all its names are
texts. -/
structure Scannable (live : Live) (root : String) : Prop where
  resolves : ∃ r, live.resolvePathOptional root = .ok r
  texts : ∀ p, location root <+: p → (live.nodes.get? p).isSome → (pathText p).isSome

/-- What is scanned, other than the root of the file system, has a canonical path. -/
lemma Scannable.exists_canonical (h : live.Scannable root) (hin : location root <+: p)
    (hp : (live.nodes.get? p).isSome) (hne : p ≠ []) :
    ∃ path, Canonical path ∧ location path = p := by
  obtain ⟨path, htext⟩ := Option.isSome_iff_exists.mp (h.texts p hin hp)
  refine ⟨path, canonical_of_pathText hp htext ?_⟩
  rintro rfl
  obtain ⟨cs, rfl, hcs⟩ := pathText_eq_some.mp htext
  have hnil : [] = cs := absolute_injective nofun
    (fun c hc => (fileName_of_mem hp c hc).toComponent) hcs
  exact hne (by rw [← hnil, List.map_nil])

lemma location_ne (h : Canonical path) : location path ≠ [] := by
  obtain ⟨cs, hne, hcs, rfl⟩ := h
  rw [location_absolute hcs]
  simpa using hne

lemma location_injective {path' : String} (h : Canonical path) (h' : Canonical path')
    (heq : location path = location path') : path = path' := by
  have htext := pathText_location h
  rw [heq, pathText_location h'] at htext
  exact (Option.some.inj htext).symm

lemma scanEntry_eq {e : String × LiveNode} :
    live.scanEntry p = some e ↔
      pathText p = some e.1 ∧ live.nodes.get? p = some e.2 ∧ e.1 ≠ "/" := by
  unfold scanEntry
  cases hp : pathText p with
  | none => simp
  | some path =>
    cases hn : live.nodes.get? p with
    | none => simp
    | some node =>
      simp only [Option.some.injEq]
      constructor
      · intro h
        split at h
        · cases h
        rename_i hne
        cases h
        exact ⟨rfl, rfl, hne⟩
      · rintro ⟨rfl, rfl, hne⟩
        rw [if_neg hne]

/-- The names below a root are texts when those of every directory are. -/
lemma scanNode_ok (hroot : StatusRoot root) (hpresent : (live.nodes.get? (location root)).isSome) :
    (∀ p ∈ subtree live.nodes (location root), live.scanNode p = .ok ()) ↔
      ∀ p, location root <+: p → (live.nodes.get? p).isSome → (pathText p).isSome := by
  have hmem := fun p => mem_subtree live.shaped hpresent (q := p)
  constructor
  · rintro h p ⟨r, rfl⟩ hp
    induction r using List.reverseRecOn with
    | nil =>
      obtain ⟨ds, hds, rfl⟩ := hroot
      rw [List.append_nil, location_absolute hds, pathText_eq_some.mpr ⟨ds, rfl, rfl⟩]
      rfl
    | append_singleton r n _ =>
      -- the directory above was scanned
      rw [← List.append_assoc] at hp ⊢
      have hparent := live.shaped.present (List.prefix_append ..) hp
      have hscan := h _ ((hmem _).mpr ⟨List.prefix_append .., hparent⟩)
      rw [scanNode, refuseIf_eq_ok, List.any_eq_true] at hscan
      by_contra hnone
      refine hscan ⟨_, PathTree.mem_children.mpr ⟨⟨n, rfl⟩, hp⟩, ?_⟩
      simpa using hnone
  · intro h p hp
    rw [scanNode, refuseIf_eq_ok, List.any_eq_true]
    rintro ⟨c, hc, hnone⟩
    obtain ⟨⟨n, rfl⟩, hsome⟩ := PathTree.mem_children.mp hc
    have := h _ (((hmem p).mp hp).1.trans (List.prefix_append ..)) hsome
    rw [Option.isNone_iff_eq_none.mp hnone] at this
    cases this

/-- **What a scan finds**: the live paths inside the root. -/
theorem scanLiveSubtree_ok (hroot : StatusRoot root) {entries : OrdMap String LiveNode}
    (h : live.scanLiveSubtree root = .ok entries) :
    live.Scannable root ∧ ∀ path, entries.get? path =
      if pathIsWithin path root then live.node? path else none := by
  unfold scanLiveSubtree at h
  split at h
  · cases h
  · rename_i hres
    cases h
    have hnone := resolvePathOptional_eq hres
    have hout : ∀ p, location root <+: p → live.nodes.get? p = none := by
      intro p hp
      rw [← Option.not_isSome_iff_eq_none]
      intro hsome
      have := live.shaped.present hp hsome
      rw [← hnone] at this
      cases this
    refine ⟨⟨⟨_, hres⟩, fun p hp hsome => ?_⟩,
      fun path => Option.ext fun n => ⟨nofun, fun hn => ?_⟩⟩
    · rw [hout p hp] at hsome
      cases hsome
    · rw [Option.ite_none_right_eq_some, node?_eq_some] at hn
      rw [hout _ ((hroot.within_iff hn.2.1).mp hn.1)] at hn
      cases hn.2.2
  · rename_i node hres
    have hpresent : (live.nodes.get? (location root)).isSome := by
      rw [← resolvePathOptional_eq hres]
      rfl
    obtain ⟨hscan, ⟨⟩⟩ := then_eq_ok.mp h
    have htexts := (scanNode_ok hroot hpresent).mp (checkAll_eq_ok.mp hscan)
    refine ⟨⟨⟨_, hres⟩, htexts⟩, fun path => ?_⟩
    have hagree : ∀ e ∈ (subtree live.nodes (location root)).filterMap live.scanEntry,
        ∀ e' ∈ (subtree live.nodes (location root)).filterMap live.scanEntry,
          e.1 = e'.1 → e.2 = e'.2 := by
      intro e he e' he' heq
      obtain ⟨p, -, hp⟩ := List.mem_filterMap.mp he
      obtain ⟨p', -, hp'⟩ := List.mem_filterMap.mp he'
      obtain ⟨ht, hn, hne⟩ := scanEntry_eq.mp hp
      obtain ⟨ht', hn', hne'⟩ := scanEntry_eq.mp hp'
      have hloc := (canonical_of_pathText (by rw [hn]; rfl) ht hne).2
      have hloc' := (canonical_of_pathText (by rw [hn']; rfl) ht' hne').2
      rw [← hloc, heq, hloc', hn'] at hn
      exact (Option.some.inj hn).symm
    refine Option.ext fun n => ?_
    rw [get?_insertAll_iff hagree, List.mem_filterMap, Option.ite_none_right_eq_some, node?_eq_some]
    constructor
    · rintro ⟨p, hp, hentry⟩
      obtain ⟨ht, hn, hne⟩ := scanEntry_eq.mp hentry
      obtain ⟨hcanonical, rfl⟩ := canonical_of_pathText (by rw [hn]; rfl) ht hne
      have hin := ((mem_subtree live.shaped hpresent).mp hp).1
      exact ⟨(hroot.within_iff hcanonical).mpr hin, hcanonical, hn⟩
    · rintro ⟨hin, hcanonical, hn⟩
      refine ⟨location path, (mem_subtree live.shaped hpresent).mpr
        ⟨(hroot.within_iff hcanonical).mp hin, by rw [hn]; rfl⟩, ?_⟩
      exact scanEntry_eq.mpr ⟨pathText_location hcanonical, hn, hcanonical.ne_root⟩

lemma scanLiveSubtree_isOk (hroot : StatusRoot root) (h : live.Scannable root) :
    ∃ entries, live.scanLiveSubtree root = .ok entries := by
  obtain ⟨r, hr⟩ := h.resolves
  unfold scanLiveSubtree
  rw [hr]
  cases r with
  | none => exact ⟨_, rfl⟩
  | some node =>
    have hpresent : (live.nodes.get? (location root)).isSome := by
      rw [← resolvePathOptional_eq hr]
      rfl
    exact ⟨_, then_eq_ok.mpr ⟨checkAll_eq_ok.mpr ((scanNode_ok hroot hpresent).mpr h.texts), rfl⟩⟩

end Live

/-! ## What is versioned -/

section

variable {Id : Type} {m : Contents Id} {root : String}

/-- Every metadata key below a root holds metadata. -/
def Decodes (m : Contents Id) (root : String) : Prop :=
  ∀ path b, pathIsWithin path root = true → m.get? (fileMetaKey path) ≠ some (.chunk b)

lemma mem_metaBelow {path : String} {v : TreeValue Id} :
    (path, v) ∈ m.entries.filterMap (metaBelow root) ↔
      pathIsWithin path root = true ∧ m.get? (fileMetaKey path) = some v := by
  rw [List.mem_filterMap]
  constructor
  · rintro ⟨⟨k, w⟩, hmem, h⟩
    rcases key_cases k with ⟨p, i, rfl⟩ | ⟨p, rfl⟩
    · cases h
    change (if pathIsWithin p root then some (p, w) else none) = some (path, v) at h
    split at h
    · rename_i hin
      cases h
      exact ⟨hin, mem_entries.mp hmem⟩
    · cases h
  · rintro ⟨hin, hv⟩
    refine ⟨(fileMetaKey path, v), mem_entries.mpr hv, ?_⟩
    change (if pathIsWithin path root then some (path, v) else none) = some (path, v)
    rw [if_pos hin]

/-- **What is versioned below a root.** -/
theorem versionedEntries_ok {entries : OrdMap String VersionEntry}
    (h : versionedEntries m root = .ok entries) :
    Decodes m root ∧ ∀ path, entries.get? path =
      if pathIsWithin path root then entryAt m path else none := by
  obtain ⟨es, hes, ⟨⟩⟩ := bind_eq_ok.mp h
  have hmem : ∀ path metadata, (path, metadata) ∈ es ↔
      pathIsWithin path root = true ∧ m.get? (fileMetaKey path) = some (.entry metadata) := by
    intro path metadata
    rw [mem_mapM hes]
    constructor
    · rintro ⟨⟨p, v⟩, hp, hd⟩
      cases v with
      | chunk b => cases hd
      | entry md =>
        cases hd
        exact mem_metaBelow.mp hp
    · intro hp
      exact ⟨(path, .entry metadata), mem_metaBelow.mpr hp, rfl⟩
  have hagree : ∀ e ∈ es, ∀ e' ∈ es, e.1 = e'.1 → e.2 = e'.2 := by
    rintro ⟨p, md⟩ he ⟨p', md'⟩ he' rfl
    have h1 := ((hmem p md).mp he).2
    rw [((hmem p md').mp he').2] at h1
    cases h1
    rfl
  refine ⟨fun path b hin hb => ?_, fun path => Option.ext fun md => ?_⟩
  · obtain ⟨e, he⟩ := mapM_ok.mp ⟨es, hes⟩ _ (mem_metaBelow.mpr ⟨hin, hb⟩)
    cases he
  rw [get?_insertAll_iff hagree, hmem, entryAt]
  by_cases hin : pathIsWithin path root = true
  · cases m.get? (fileMetaKey path) with
    | none => simp
    | some v => cases v <;> simp [hin]
  · simp [hin]

lemma versionedEntries_isOk (h : Decodes m root) :
    ∃ entries, versionedEntries m root = .ok entries := by
  have hall : ∀ e ∈ m.entries.filterMap (metaBelow root), ∃ e', decodeMeta e = .ok e' := by
    rintro ⟨p, v⟩ hp
    obtain ⟨hin, hv⟩ := mem_metaBelow.mp hp
    cases v with
    | chunk b => exact absurd hv (h p b hin)
    | entry md => exact ⟨_, rfl⟩
  obtain ⟨es, hes⟩ := mapM_ok.mpr hall
  exact ⟨_, bind_eq_ok.mpr ⟨es, hes, rfl⟩⟩

end

/-! ## What is reported -/

section

variable {Id : Type} [ObjectId Id] {env : Env Id} {P : Prolly env} {chunkSize : Nat}
  {s : Objects Id} {tree : Root Id} {live : Live} {root : String} {m : Contents Id}

/-- The change at a path. -/
def changeAt (P : Prolly env) (chunkSize : Nat) (s : Objects Id) (tree : Root Id) (m : Contents Id)
    (live : Live) (path : String) : Except Error (Option VersionWorkingTreeChangeKind) :=
  pathChange env s (P.get s.nodes.get? tree) chunkSize path (entryAt m path) (live.viewAt path)

/-- A comparison that goes through. -/
structure Comparable (P : Prolly env) (chunkSize : Nat) (s : Objects Id) (tree : Root Id)
    (live : Live) (root : String) (m : Contents Id) : Prop where
  load : P.load s.nodes.get? tree = .ok m
  decodes : Decodes m root
  scannable : live.Scannable root
  compares : ∀ path, pathIsWithin path root = true →
    ∃ c, changeAt P chunkSize s tree m live path = .ok c

lemma changeAt_none {path : String} (hm : entryAt m path = none) (hl : live.viewAt path = none) :
    changeAt P chunkSize s tree m live path = .ok none := by
  rw [changeAt, hm, hl]
  rfl

/-- **What a comparison reports**: the paths inside the root that changed. -/
theorem treeChanges_ok (hroot : StatusRoot root) {changes : List VersionWorkingTreeChange}
    (h : treeChanges P chunkSize s tree live root = .ok changes) :
    ∃ m, Comparable P chunkSize s tree live root m ∧ ∀ path kind, ⟨path, kind⟩ ∈ changes ↔
      pathIsWithin path root = true ∧
        changeAt P chunkSize s tree m live path = .ok (some kind) := by
  unfold treeChanges at h
  simp only [bind_eq_ok] at h
  obtain ⟨m, hload, versioned, hversioned, entries, hentries, listed, hlisted, ⟨⟩⟩ := h
  obtain ⟨hdecodes, hv⟩ := versionedEntries_ok hversioned
  obtain ⟨hscannable, hl⟩ := Live.scanLiveSubtree_ok hroot hentries
  -- The paths that are compared are those on one of the sides.
  have hpaths : ∀ path, path ∈ (PathSet.ofList (pathsOf versioned ++ pathsOf entries)).toList ↔
      pathIsWithin path root = true ∧ ((entryAt m path).isSome ∨ (live.viewAt path).isSome) := by
    intro path
    rw [PathSet.mem_ofList, List.mem_append, mem_pathsOf, mem_pathsOf, hv, hl,
      Live.viewAt, Option.isSome_map]
    by_cases hin : pathIsWithin path root = true <;> simp [hin]
  have hchange : ∀ path, pathIsWithin path root = true →
      pathChange env s (P.get s.nodes.get? tree) chunkSize path (versioned.get? path)
        ((entries.get? path).map LiveNode.view) = changeAt P chunkSize s tree m live path := by
    intro path hin
    rw [hv, hl, if_pos hin, if_pos hin]
    rfl
  have hcompared : ∀ path, pathIsWithin path root = true →
      path ∈ (PathSet.ofList (pathsOf versioned ++ pathsOf entries)).toList ∨
        changeAt P chunkSize s tree m live path = .ok none := by
    intro path hin
    by_cases hside : (entryAt m path).isSome ∨ (live.viewAt path).isSome
    · exact .inl ((hpaths path).mpr ⟨hin, hside⟩)
    · simp only [not_or, Option.not_isSome_iff_eq_none] at hside
      exact .inr (changeAt_none hside.1 hside.2)
  refine ⟨m, ⟨hload, hdecodes, hscannable, fun path hin => ?_⟩, fun path kind => ?_⟩
  · rcases hcompared path hin with hmem | hnone
    · obtain ⟨c, hc⟩ := mapM_ok.mp ⟨listed, hlisted⟩ path hmem
      obtain ⟨c', hc', -⟩ := bind_eq_ok.mp hc
      exact ⟨c', (hchange path hin).symm.trans hc'⟩
    · exact ⟨none, hnone⟩
  · rw [List.mem_filterMap]
    constructor
    · rintro ⟨c, hc, rfl⟩
      obtain ⟨path', hpath', hc⟩ := (mem_mapM hlisted).mp hc
      obtain ⟨k, hk, hkind⟩ := bind_eq_ok.mp hc
      obtain ⟨kind', rfl, hsame⟩ := Option.map_eq_some_iff.mp (Except.ok.inj hkind)
      cases hsame
      have hin := ((hpaths path).mp hpath').1
      exact ⟨hin, (hchange path hin).symm.trans hk⟩
    · rintro ⟨hin, hk⟩
      rcases hcompared path hin with hmem | hnone
      · refine ⟨some ⟨path, kind⟩, (mem_mapM hlisted).mpr ⟨path, hmem, ?_⟩, rfl⟩
        exact bind_eq_ok.mpr ⟨some kind, (hchange path hin).trans hk, rfl⟩
      · rw [hnone] at hk
        cases hk

/-- A comparison that goes through reports something. -/
lemma treeChanges_isOk (hroot : StatusRoot root)
    (h : Comparable P chunkSize s tree live root m) :
    ∃ changes, treeChanges P chunkSize s tree live root = .ok changes := by
  obtain ⟨versioned, hversioned⟩ := versionedEntries_isOk h.decodes
  obtain ⟨entries, hentries⟩ := Live.scanLiveSubtree_isOk hroot h.scannable
  have hv := (versionedEntries_ok hversioned).2
  have hl := (Live.scanLiveSubtree_ok hroot hentries).2
  have hall : ∀ path ∈ (PathSet.ofList (pathsOf versioned ++ pathsOf entries)).toList,
      ∃ c : Option VersionWorkingTreeChange, (do
        let change ← pathChange env s (P.get s.nodes.get? tree) chunkSize path
          (versioned.get? path) ((entries.get? path).map LiveNode.view)
        return change.map fun change => (⟨path, change⟩ : VersionWorkingTreeChange)) = .ok c := by
    intro path hpath
    rw [PathSet.mem_ofList, List.mem_append, mem_pathsOf, mem_pathsOf, hv, hl] at hpath
    have hin : pathIsWithin path root = true := by
      by_contra hout
      simp [hout] at hpath
    obtain ⟨c, hc⟩ := h.compares path hin
    refine ⟨_, bind_eq_ok.mpr ⟨c, ?_, rfl⟩⟩
    rw [hv, hl, if_pos hin, if_pos hin]
    exact hc
  obtain ⟨listed, hlisted⟩ := mapM_ok.mpr hall
  refine ⟨_, bind_eq_ok.mpr ⟨m, h.load, bind_eq_ok.mpr ⟨versioned, hversioned,
    bind_eq_ok.mpr ⟨entries, hentries, bind_eq_ok.mpr ⟨listed, hlisted, rfl⟩⟩⟩⟩⟩

end

end SlateFs.Version
