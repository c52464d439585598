import SlateFs.Version.Sound
import SlateFs.Version.Restore

/-!
# What a restore leaves

A restore that succeeds has removed the live subtrees of some paths and then written the
versioned subtrees of others. Two things are expected of it: after an exact restore
nothing differs from the version any more, and whatever is gone was listed in the preview
whose token was given.

An exact restore does both if the versioned tree has the directories above its paths and
what is rewritten can be represented in the live file system. An overlay restore keeps to
its list unless a live directory with entries is replaced by a file or a link.
-/

namespace SlateFs.Version

open Live

/-! ## Lookups that only see a part -/

namespace Live

variable {live live' : Live}

/-- A lookup goes on below a directory, unless the name is too long. -/
lemma resolveFrom_cons {node : LiveNode} {p : LivePath} {c : List Char} {cs : List (List Char)} :
    (∃ r, live.resolveFrom node p (c :: cs) = .ok r) ↔
      node.isDir = true ∧ ¬(String.ofList c).utf8ByteSize > MAX_NAME_LEN ∧
        ∀ child, live.nodes.get? (p ++ [textName c]) = some child →
          ∃ r, live.resolveFrom child (p ++ [textName c]) cs = .ok r := by
  rw [resolveFrom, lookup]
  by_cases hdir : node.isDir = true
  · by_cases hlong : (String.ofList c).utf8ByteSize > MAX_NAME_LEN
    · simp [hdir, hlong]
    · cases live.nodes.get? (p ++ [textName c]) <;> simp [hdir, hlong]
  · simp [hdir]

/-- A lookup goes as far in both trees if they agree on the directories it passes. -/
lemma resolveFrom_congr : ∀ {cs : List (List Char)} {p : LivePath} {node node' : LiveNode},
    node'.isDir = node.isDir →
    (∀ ds, ds <+: cs → ds ≠ cs → ds ≠ [] →
      live'.view (p ++ ds.map textName) = live.view (p ++ ds.map textName)) →
    (∃ r, live.resolveFrom node p cs = .ok r) → ∃ r, live'.resolveFrom node' p cs = .ok r
  | [], _, _, node', _, _, _ => ⟨some node', rfl⟩
  | c :: cs, p, node, node', hdir, hview, h => by
    obtain ⟨hnode, hshort, hbelow⟩ := resolveFrom_cons.mp h
    refine resolveFrom_cons.mpr ⟨hdir.trans hnode, hshort, fun child' hnew => ?_⟩
    cases cs with
    | nil => exact ⟨some child', rfl⟩
    | cons c' cs =>
      have hsame := hview [c] ⟨c' :: cs, rfl⟩ (by simp) (by simp)
      rw [List.map_cons, List.map_nil, view, view, hnew] at hsame
      obtain ⟨child, hold, hkind⟩ := Option.map_eq_some_iff.mp hsame.symm
      have hdir' : child'.isDir = child.isDir := congrArg NodeView.isDir hkind.symm
      refine resolveFrom_congr hdir' (fun ds hds hne _ => ?_) (hbelow child hold)
      have := hview (c :: ds) (List.cons_prefix_cons.mpr ⟨rfl, hds⟩) (by simpa using hne) (by simp)
      rwa [List.map_cons, ← List.singleton_append, ← List.append_assoc] at this

lemma resolves_congr {root : String}
    (hview : ∀ q, q <+: location root → q ≠ location root → live'.view q = live.view q)
    (h : ∃ r, live.resolvePathOptional root = .ok r) :
    ∃ r, live'.resolvePathOptional root = .ok r := by
  unfold resolvePathOptional at h ⊢
  obtain ⟨d, hd, hdir⟩ := live.shaped.root
  obtain ⟨d', hd', hdir'⟩ := live'.shaped.root
  rw [hd] at h
  rw [hd']
  refine resolveFrom_congr (hdir'.trans hdir.symm) (fun ds hds hne _ => ?_) h
  refine hview _ (prefix_textName.mpr hds) fun heq => hne ?_
  exact List.map_injective_iff.mpr textName_injective heq

end Live

/-! ## What can be restored -/

section

variable {Id : Type} [ObjectId Id] {env : Env Id} {P : Prolly env} {chunkSize : Nat}
  {s : Objects Id} {tree : Root Id} {m : Contents Id}

/-- An entry that the live file system can hold as it is recorded: a mode of permission bits
only, the size that goes with the contents, and for a file chunks that are the pieces of what
is read. A new link always has mode 0o777. -/
def Restorable (P : Prolly env) (chunkSize : Nat) (s : Objects Id) (tree : Root Id)
    (path : String) (e : VersionEntry) : Prop :=
  match e.data with
  | .directory => e.mode < 0o10000 ∧ e.size = 0
  | .symlink target => e.mode = 0o777 ∧ e.size = target.length
  | .file count => e.mode < 0o10000 ∧ 0 < chunkSize ∧ chunkCount e.size chunkSize = count ∧
      ∀ contents, restoredContents P chunkSize s tree path e.size = .ok contents →
        ∀ i < count, ∃ chunk, readChunk env s (P.get s.nodes.get? tree) path i = .ok chunk ∧
          chunk.length < 2 ^ 32 ∧ (contents.drop (i * chunkSize)).take chunk.length = chunk

variable {path : String} {contents : Bytes} {e : VersionEntry} {v : NodeView}

lemma chunksMatch_ok {get : TreeKey → Except Error (Option (TreeValue Id))} : ∀ {is : List Nat},
    chunksMatch env s get path chunkSize contents is = .ok true ↔
      ∀ i ∈ is, ∃ chunk, readChunk env s get path i = .ok chunk ∧ chunk.length < 2 ^ 32 ∧
        (contents.drop (i * chunkSize)).take chunk.length = chunk
  | [] => by simp [chunksMatch]
  | i :: is => by
    rw [chunksMatch, List.forall_mem_cons, ← chunksMatch_ok]
    simp only [↓then_eq_ok, bind_eq_ok, refuseIf_eq_ok]
    constructor
    · rintro ⟨chunk, hchunk, hsmall, h⟩
      split at h
      · rename_i heq
        exact ⟨⟨chunk, hchunk, by omega, heq⟩, h⟩
      · cases h
    · rintro ⟨⟨chunk, hchunk, hsmall, heq⟩, h⟩
      exact ⟨chunk, hchunk, by omega, by rw [if_pos heq]; exact h⟩

lemma length_resize (contents : Bytes) (size : Nat) : (resize contents size).length = size := by
  unfold resize
  rw [List.length_append, List.length_take, List.length_replicate]
  omega

lemma unless_eq_ok {c : Prop} [Decidable c] {x : Except Error Bool} :
    (if c then .ok false else x) = .ok true ↔ ¬c ∧ x = .ok true := by
  split <;> simp [*]

variable (h : restoredView P chunkSize s tree path e = .ok v)
include h

lemma kindMatches_restoredView : versionEntryKindMatches e.data v.data = true := by
  unfold restoredView at h
  split at h
  case h_3 hd =>
    obtain ⟨_, -, ⟨⟩⟩ := bind_eq_ok.mp h
    rw [hd]
    rfl
  all_goals
    rename_i hd
    cases h
    rw [hd]
    rfl

/-- **A restored entry is unchanged just when it can be restored.** -/
theorem matches_restoredView :
    versionEntryMatchesLive env s (P.get s.nodes.get? tree) path chunkSize e v = .ok true ↔
      Restorable P chunkSize s tree path e := by
  unfold versionEntryMatchesLive Restorable
  rw [unless_eq_ok]
  unfold restoredView at h
  split at h
  · rename_i hd
    cases h
    simp only [hd, dataMatches, NodeView.size, and_true]
    omega
  · rename_i target hd
    cases h
    simp only [hd, dataMatches, NodeView.size, decide_true, and_true]
    omega
  · rename_i count hd
    obtain ⟨contents, hcontents, ⟨⟩⟩ := bind_eq_ok.mp h
    have hlen : contents.length = e.size := by
      obtain ⟨_, -, ⟨⟩⟩ := bind_eq_ok.mp hcontents
      exact length_resize ..
    simp only [hd, dataMatches, NodeView.size, ↓then_eq_ok, refuseIf_eq_ok, not_not, ne_eq,
      not_true_eq_false, false_or]
    constructor
    · rintro ⟨hmeta, hpos, hcount, hchunks⟩
      refine ⟨by omega, by omega, hcount, fun contents' hcontents' i hi => ?_⟩
      rw [hcontents] at hcontents'
      cases hcontents'
      exact chunksMatch_ok.mp hchunks i (List.mem_range.mpr hi)
    · rintro ⟨hmode, hpos, hcount, hchunks⟩
      exact ⟨by omega, by omega, hcount, chunksMatch_ok.mpr fun i hi =>
        hchunks contents hcontents i (List.mem_range.mp hi)⟩

lemma pathChange_restoredView :
    pathChange env s (P.get s.nodes.get? tree) chunkSize path (some e) (some v) = .ok none ↔
      Restorable P chunkSize s tree path e := by
  rw [← matches_restoredView h, pathChange, if_pos (kindMatches_restoredView h), bind_eq_ok]
  constructor
  · rintro ⟨same, hsame, hnone⟩
    cases same with
    | false => cases hnone
    | true => exact hsame
  · intro hsame
    exact ⟨true, hsame, rfl⟩

end

/-! ## What a successful restore did -/

section

variable {Id : Type} {m : Contents Id} {live : Live} {path : String}
  {kind : VersionWorkingTreeChangeKind}

/-- The sides that a kind of change has. -/
inductive Sides (m : Contents Id) (live : Live) (path : String) :
    VersionWorkingTreeChangeKind → Prop
  | added (v : NodeView) (hm : entryAt m path = none) (hl : live.viewAt path = some v) :
      Sides m live path .added
  | deleted (e : VersionEntry) (hm : entryAt m path = some e) (hl : live.viewAt path = none) :
      Sides m live path .deleted
  | typeChanged (e : VersionEntry) (v : NodeView) (hm : entryAt m path = some e)
      (hl : live.viewAt path = some v) (hkind : versionEntryKindMatches e.data v.data = false) :
      Sides m live path .typeChanged
  | modified (e : VersionEntry) (v : NodeView) (hm : entryAt m path = some e)
      (hl : live.viewAt path = some v) : Sides m live path .modified

lemma Sides.versioned (h : Sides m live path kind) (hkind : kind ≠ .added) :
    (entryAt m path).isSome := by
  cases h with
  | added => exact absurd rfl hkind
  | deleted e hm => rw [hm]; rfl
  | typeChanged e v hm => rw [hm]; rfl
  | modified e v hm => rw [hm]; rfl

lemma Sides.not_added (h : Sides m live path kind) (he : (entryAt m path).isSome) :
    kind ≠ .added := by
  rintro rfl
  cases h with
  | added v hm => rw [hm] at he; cases he

/-- The changes for which the live subtree is removed. -/
def Doomed (mode : VersionRestoreMode) (kind : VersionWorkingTreeChangeKind) : Prop :=
  kind = .typeChanged ∨ kind = .added ∧ mode = .exact

/-- What changed and was not deleted is live. -/
lemma Sides.canonical (h : Sides m live path kind) (hkind : kind ≠ .deleted) : Canonical path := by
  suffices hsome : (live.viewAt path).isSome from canonical_of_viewAt hsome
  cases h with
  | added v hm hl => rw [hl]; rfl
  | typeChanged e v hm hl => rw [hl]; rfl
  | modified e v hm hl => rw [hl]; rfl
  | deleted => exact absurd rfl hkind

lemma Sides.canonical_of_doomed {mode : VersionRestoreMode} (h : Sides m live path kind)
    (hdoomed : Doomed mode kind) : Canonical path := by
  refine h.canonical ?_
  rintro rfl
  rcases hdoomed with h | ⟨h, -⟩ <;> cases h

end

section

variable {Id : Type} [ObjectId Id] {env : Env Id} {P : Prolly env} {chunkSize : Nat}
  {s : Objects Id} {tree : Root Id} {m : Contents Id} {live live' : Live} {root path : String}
  {kind : VersionWorkingTreeChangeKind}

lemma change_added {v : NodeView} (hm : entryAt m path = none) (hl : live.viewAt path = some v) :
    changeAt P chunkSize s tree m live path = .ok (some .added) := by
  rw [changeAt, hm, hl]
  rfl

/-- A path inside a root at which something changed. -/
def Differs (P : Prolly env) (chunkSize : Nat) (s : Objects Id) (tree : Root Id) (m : Contents Id)
    (live : Live) (root path : String) (kind : VersionWorkingTreeChangeKind) : Prop :=
  pathIsWithin path root = true ∧ changeAt P chunkSize s tree m live path = .ok (some kind)

lemma Differs.sides (h : Differs P chunkSize s tree m live root path kind) :
    Sides m live path kind := by
  obtain ⟨-, h⟩ := h
  unfold changeAt at h
  cases hm : entryAt m path with
  | none =>
    cases hl : live.viewAt path with
    | none =>
      rw [hm, hl] at h
      cases h
    | some v =>
      rw [hm, hl] at h
      cases h
      exact .added v hm hl
  | some e =>
    cases hl : live.viewAt path with
    | none =>
      rw [hm, hl] at h
      cases h
      exact .deleted e hm hl
    | some v =>
      rw [hm, hl, pathChange] at h
      split at h
      · obtain ⟨same, -, h⟩ := bind_eq_ok.mp h
        cases same with
        | true => cases h
        | false =>
          cases h
          exact .modified e v hm hl
      · rename_i hkind
        cases h
        exact .typeChanged e v hm hl (by simpa using hkind)

/-- A path that is rewritten: it is inside a versioned path that changed, spelled canonically. -/
def Rewritten (P : Prolly env) (chunkSize : Nat) (s : Objects Id) (tree : Root Id)
    (m : Contents Id) (live : Live) (root path : String) : Prop :=
  ∃ c kind r, Differs P chunkSize s tree m live root c kind ∧ kind ≠ .added ∧
    canonicalPath c = .ok r ∧ pathIsWithin path r = true

/-- What a restore with a given mode does to the live tree. -/
structure RestoreApplied (P : Prolly env) (chunkSize : Nat) (s : Objects Id) (tree : Root Id)
    (m : Contents Id) (root : String) (mode : VersionRestoreMode) (live middle live' : Live) :
    Prop where
  status_root : StatusRoot root
  comparable : Comparable P chunkSize s tree live root m
  removed : Live.Removed (fun q => ∃ path kind, Differs P chunkSize s tree m live root path kind ∧
    Doomed mode kind ∧ location path <+: q) live middle
  restored : Restored P chunkSize s tree (fun path e =>
    Rewritten P chunkSize s tree m live root path ∧ entryAt m path = some e) middle live'

variable {mode : VersionRestoreMode} {changes : List VersionWorkingTreeChange}

lemma mem_actions {a : VersionRestoreActionKind} :
    ⟨path, a⟩ ∈ changes.filterMap (restoreAction mode) ↔
      ∃ kind, ⟨path, kind⟩ ∈ changes ∧ restoreAction mode ⟨path, kind⟩ = some ⟨path, a⟩ := by
  rw [List.mem_filterMap]
  constructor
  · rintro ⟨⟨path', kind⟩, hmem, hact⟩
    have hpath : path' = path := by
      cases kind <;> cases mode <;> cases hact <;> rfl
    subst hpath
    exact ⟨kind, hmem, hact⟩
  · rintro ⟨kind, hmem, hact⟩
    exact ⟨_, hmem, hact⟩

lemma restoreAction_delete :
    restoreAction mode ⟨path, kind⟩ = some ⟨path, .delete⟩ ↔ kind = .added ∧ mode = .exact := by
  cases kind <;> cases mode <;> simp [restoreAction]

lemma restoreAction_replace :
    restoreAction mode ⟨path, kind⟩ = some ⟨path, .replace⟩ ↔
      kind = .modified ∨ kind = .typeChanged := by
  cases kind <;> cases mode <;> simp [restoreAction]

lemma restoreAction_candidate :
    (∃ a, a ≠ .delete ∧ restoreAction mode ⟨path, kind⟩ = some ⟨path, a⟩) ↔ kind ≠ .added := by
  cases kind <;> cases mode <;> simp [restoreAction]

lemma mem_removalPaths :
    path ∈ removalPaths (changes.filterMap (restoreAction mode)) changes ↔
      ∃ kind, ⟨path, kind⟩ ∈ changes ∧ Doomed mode kind := by
  unfold removalPaths Doomed
  rw [List.mem_insertionSort, PathSet.mem_ofList, List.mem_append, List.mem_map, List.mem_map]
  constructor
  · rintro (⟨⟨_, a⟩, ha, rfl⟩ | ⟨⟨_, kind⟩, hk, rfl⟩)
    · obtain ⟨ha, hdelete⟩ := List.mem_filter.mp ha
      cases of_decide_eq_true hdelete
      obtain ⟨kind, hkind, hact⟩ := mem_actions.mp ha
      exact ⟨kind, hkind, .inr (restoreAction_delete.mp hact)⟩
    · obtain ⟨hk, htype⟩ := List.mem_filter.mp hk
      exact ⟨kind, hk, .inl (of_decide_eq_true htype)⟩
  · rintro ⟨kind, hkind, rfl | hadded⟩
    · exact .inr ⟨_, List.mem_filter.mpr ⟨hkind, by simp⟩, rfl⟩
    · exact .inl ⟨⟨path, .delete⟩, List.mem_filter.mpr
        ⟨mem_actions.mpr ⟨kind, hkind, restoreAction_delete.mpr hadded⟩, by simp⟩, rfl⟩

/-- The paths that are restored cover what changed and is versioned. -/
lemma covered_restorePaths {paths : List String}
    (h : restorePaths (((changes.filterMap (restoreAction mode)).filter fun a => a.action ≠
      .delete).map (·.path)) = .ok paths) :
    (∀ r ∈ paths, Canonical r) ∧ ∀ q, (∃ r ∈ paths, pathIsWithin q r = true) ↔
      ∃ c kind r, ⟨c, kind⟩ ∈ changes ∧ kind ≠ .added ∧ canonicalPath c = .ok r ∧
        pathIsWithin q r = true := by
  have hmem : ∀ c, c ∈ ((changes.filterMap (restoreAction mode)).filter
      fun a => a.action ≠ .delete).map (·.path) ↔ ∃ kind, ⟨c, kind⟩ ∈ changes ∧ kind ≠ .added := by
    intro c
    rw [List.mem_map]
    constructor
    · rintro ⟨⟨_, a⟩, ha, rfl⟩
      obtain ⟨ha, hkeep⟩ := List.mem_filter.mp ha
      obtain ⟨kind, hkind, hact⟩ := mem_actions.mp ha
      exact ⟨kind, hkind, restoreAction_candidate.mp ⟨a, of_decide_eq_true hkeep, hact⟩⟩
    · rintro ⟨kind, hkind, hne⟩
      obtain ⟨a, ha, hact⟩ := restoreAction_candidate.mpr hne
      exact ⟨⟨c, a⟩, List.mem_filter.mpr ⟨mem_actions.mpr ⟨kind, hkind, hact⟩, by simpa using ha⟩,
        rfl⟩
  generalize ((changes.filterMap (restoreAction mode)).filter
    fun a => a.action ≠ .delete).map (·.path) = candidates at h hmem
  unfold restorePaths at h
  split at h
  · rename_i hempty
    cases h
    refine ⟨nofun, fun q => ⟨fun ⟨r, hr, _⟩ => absurd hr List.not_mem_nil, ?_⟩⟩
    rintro ⟨c, kind, r, hkind, hne, -⟩
    have hc := (hmem c).mpr ⟨kind, hkind, hne⟩
    rw [List.isEmpty_iff.mp hempty] at hc
    cases hc
  · refine ⟨roots_canonical h, fun q => ?_⟩
    rw [covered_iff h]
    constructor
    · rintro ⟨r, ⟨c, hc, hr⟩, hin⟩
      obtain ⟨kind, hkind, hne⟩ := (hmem c).mp hc
      exact ⟨c, kind, r, hkind, hne, hr, hin⟩
    · rintro ⟨c, kind, r, hkind, hne, hr, hin⟩
      exact ⟨r, ⟨c, (hmem c).mpr ⟨kind, hkind, hne⟩, hr⟩, hin⟩

/-! ## Losses and differences -/

/-- Whatever is gone was to be deleted or replaced. -/
def LossesListed (actions : List VersionRestoreAction) (live live' : Live) : Prop :=
  ∀ p, (live.nodes.get? p).isSome → live'.nodes.get? p = none →
    ∃ path, pathText p = some path ∧ (⟨path, .delete⟩ ∈ actions ∨ ⟨path, .replace⟩ ∈ actions)

/-- The actions are planned for the changes. -/
def RestorePlanned (P : Prolly env) (chunkSize : Nat) (s : Objects Id) (tree : Root Id)
    (m : Contents Id)
    (root : String) (mode : VersionRestoreMode) (live : Live)
    (actions : List VersionRestoreAction) : Prop :=
  ∀ path a, ⟨path, a⟩ ∈ actions ↔ ∃ kind, Differs P chunkSize s tree m live root path kind ∧
    restoreAction mode ⟨path, kind⟩ = some ⟨path, a⟩

variable {middle : Live} {actions : List VersionRestoreAction} {c : String} {e : VersionEntry}
  {v : NodeView}

lemma RestorePlanned.listed (h : RestorePlanned P chunkSize s tree m root mode live actions)
    (hdiff : Differs P chunkSize s tree m live root path kind) (hdoomed : Doomed mode kind) :
    ⟨path, .delete⟩ ∈ actions ∨ ⟨path, .replace⟩ ∈ actions := by
  rcases hdoomed with htype | hadded
  · exact .inr ((h path _).mpr ⟨kind, hdiff, restoreAction_replace.mpr (.inr htype)⟩)
  · exact .inl ((h path _).mpr ⟨kind, hdiff, restoreAction_delete.mpr hadded⟩)

/-- What is gone was below a removed path. -/
lemma RestoreApplied.doomed (h : RestoreApplied P chunkSize s tree m root mode live middle live')
    {p : LivePath} (hp : (live.nodes.get? p).isSome) (hgone : live'.nodes.get? p = none) :
    ∃ path kind, Differs P chunkSize s tree m live root path kind ∧ Doomed mode kind ∧
      Canonical path ∧ location path <+: p := by
  by_contra hnone
  have hkept := h.removed.kept p fun ⟨path, kind, hdiff, hdoomed, hin⟩ =>
    hnone ⟨path, kind, hdiff, hdoomed, hdiff.sides.canonical_of_doomed hdoomed, hin⟩
  rw [← isSome_view] at hp
  obtain ⟨v, hv⟩ := Option.isSome_iff_exists.mp hp
  obtain ⟨w, hw, -⟩ := h.restored.keeps p v (hkept.trans hv)
  rw [view, hgone] at hw
  cases hw

/-- A versioned path inside a changed one is there afterwards, and of its kind. -/
lemma RestoreApplied.placed (h : RestoreApplied P chunkSize s tree m root mode live middle live')
    (hdiff : Differs P chunkSize s tree m live root c kind) (hkind : kind ≠ .added)
    (hc : Canonical c) (hin : pathIsWithin path c = true) (he : entryAt m path = some e) :
    ∃ w, live'.view (location path) = some w ∧ w.isDir = e.isDir :=
  h.restored.placed path e ⟨⟨c, kind, c, hdiff, hkind, hc.path_eq, hin⟩, he⟩

/-! ## Overlay restores -/

/-- No live directory with entries stands where a file or a link is versioned. -/
def OverlaySafe (m : Contents Id) (live : Live) (root : String) : Prop :=
  ∀ path e v, pathIsWithin path root = true → entryAt m path = some e → e.isDir = false →
    live.viewAt path = some v → v.isDir = true →
      ∀ n, live.nodes.get? (location path ++ [n]) = none

lemma kindMatches_directory (hv : v.isDir = true) :
    versionEntryKindMatches e.data v.data = e.isDir := by
  have hdata : v.data = .directory := of_decide_eq_true hv
  rw [hdata, VersionEntry.isDir]
  cases e.data <;> rfl

/-- **An overlay restore keeps to its list** just when no directory with entries is replaced. -/
theorem overlay_listed_iff
    (h : RestoreApplied P chunkSize s tree m root .overlay live middle live')
    (hplanned : RestorePlanned P chunkSize s tree m root .overlay live actions) :
    LossesListed actions live live' ↔ OverlaySafe m live root := by
  constructor
  · intro hlisted path e v hin he hfile hv hdir n
    have hcanonical : Canonical path :=
      canonical_of_viewAt (Option.isSome_of_eq_some hv)
    have hdiff : Differs P chunkSize s tree m live root path .typeChanged := by
      refine ⟨hin, ?_⟩
      rw [changeAt, he, hv, pathChange, if_neg (by rw [kindMatches_directory hdir, hfile]; simp)]
    -- afterwards a file or a link is there, and nothing below it
    obtain ⟨w, hw, hwdir⟩ := h.placed hdiff (by simp) hcanonical (pathIsWithin_refl path) he
    obtain ⟨node, hnode, hnodeDir, -⟩ := view_isDir hw
    have hbelow : ∀ q, q ≠ [] → live'.nodes.get? (location path ++ q) = none := fun q hq =>
      live'.shaped.below (fun d hd => by
        rw [hnode] at hd
        cases hd
        rw [hnodeDir, hwdir, hfile]) hq
    by_contra hsome
    obtain ⟨text, htext, hact⟩ := hlisted _ (Option.isSome_iff_ne_none.mpr hsome)
      (hbelow [n] (by simp))
    -- so an entry that was there and is listed would have to be versioned, and restored
    have hreplace : ⟨text, .replace⟩ ∈ actions := by
      refine hact.resolve_left fun hdelete => ?_
      obtain ⟨kind, -, hk⟩ := (hplanned _ _).mp hdelete
      cases (restoreAction_delete.mp hk).2
    obtain ⟨kind, hkdiff, hk⟩ := (hplanned _ _).mp hreplace
    have hkind : kind ≠ .added ∧ kind ≠ .deleted := by
      rcases restoreAction_replace.mp hk with rfl | rfl <;> simp
    have htextCanonical : Canonical text := hkdiff.sides.canonical hkind.2
    have hloc := (canonical_of_pathText (Option.isSome_iff_ne_none.mpr hsome) htext
      htextCanonical.ne_root).2
    obtain ⟨e', he'⟩ := Option.isSome_iff_exists.mp (hkdiff.sides.versioned hkind.1)
    obtain ⟨w', hw', -⟩ := h.placed hkdiff hkind.1 htextCanonical (pathIsWithin_refl text) he'
    rw [hloc, view, hbelow [n] (by simp)] at hw'
    cases hw'
  · intro hsafe p hp hgone
    obtain ⟨path, kind, hdiff, hdoomed, hcanonical, r, rfl⟩ := h.doomed hp hgone
    have htype : kind = .typeChanged := hdoomed.resolve_right fun hexact => by cases hexact.2
    cases r with
    | nil =>
      rw [List.append_nil]
      exact ⟨path, pathText_location hcanonical, hplanned.listed hdiff hdoomed⟩
    | cons n r =>
      -- something below a removed path: the path is a directory with an entry
      exfalso
      obtain ⟨x, hx⟩ := Option.isSome_iff_exists.mp hp
      obtain ⟨d, hd, hddir⟩ := live.shaped.above hx (List.cons_ne_nil n r)
      have hview : live.viewAt path = some d.view := by
        rw [viewAt_of_canonical hcanonical, view, hd]
        rfl
      subst htype
      cases hdiff.sides with
      | typeChanged e v hm hl hkind =>
        rw [hview] at hl
        cases hl
        have hempty := hsafe path e _ hdiff.1 hm
          ((kindMatches_directory (v := d.view) hddir).symm.trans hkind) hview hddir n
        have hpresent := live.shaped.present
          (p := location path ++ [n]) ⟨r, by simp⟩ hp
        rw [hempty] at hpresent
        cases hpresent

/-! ## Exact restores -/

/-- The versioned paths inside the root are canonical. -/
def AllCanonical (m : Contents Id) (root : String) : Prop :=
  ∀ path, pathIsWithin path root = true → (entryAt m path).isSome → Canonical path

/-- The versioned tree has the directories above its paths, inside the root. -/
def Closed (m : Contents Id) (root : String) : Prop :=
  ∀ path q, pathIsWithin path root = true → (entryAt m path).isSome → Canonical q →
    pathIsWithin path q = true → pathIsWithin q root = true → (entryAt m q).isSome

/-- The paths are canonical, they come with the directories above them, and what is rewritten
can be restored. -/
structure ExactSafe (P : Prolly env) (chunkSize : Nat) (s : Objects Id) (tree : Root Id)
    (m : Contents Id) (live : Live) (root : String) : Prop where
  canonical : AllCanonical m root
  closed : Closed m root
  restorable : ∀ c path e, pathIsWithin c root = true → (entryAt m c).isSome →
    changeAt P chunkSize s tree m live c ≠ .ok none → pathIsWithin path c = true →
      entryAt m path = some e → Restorable P chunkSize s tree path e

lemma treeChanges_nil_iff (hroot : StatusRoot root) (hload : P.load s.nodes.get? tree = .ok m) :
    treeChanges P chunkSize s tree live root = .ok [] ↔
      Decodes m root ∧ live.Scannable root ∧ ∀ path, pathIsWithin path root = true →
        changeAt P chunkSize s tree m live path = .ok none := by
  have hok : ∀ {changes}, treeChanges P chunkSize s tree live root = .ok changes →
      Comparable P chunkSize s tree live root m ∧ ∀ path kind, ⟨path, kind⟩ ∈ changes ↔
        Differs P chunkSize s tree m live root path kind := by
    intro changes h
    obtain ⟨m', hcomparable, hchanges⟩ := treeChanges_ok hroot h
    have hm := hcomparable.load
    rw [hload] at hm
    cases hm
    exact ⟨hcomparable, hchanges⟩
  constructor
  · intro h
    obtain ⟨hcomparable, hchanges⟩ := hok h
    refine ⟨hcomparable.decodes, hcomparable.scannable, fun path hin => ?_⟩
    obtain ⟨c, hc⟩ := hcomparable.compares path hin
    cases c with
    | none => exact hc
    | some kind => exact absurd ((hchanges path kind).mpr ⟨hin, hc⟩) List.not_mem_nil
  · rintro ⟨hdecodes, hscannable, hnone⟩
    obtain ⟨changes, h⟩ := treeChanges_isOk hroot
      ⟨hload, hdecodes, hscannable, fun path hin => ⟨none, hnone path hin⟩⟩
    rw [h]
    refine congrArg _ (List.eq_nil_iff_forall_not_mem.mpr fun ⟨path, kind⟩ hmem => ?_)
    obtain ⟨hin, hkind⟩ := ((hok h).2 path kind).mp hmem
    rw [hnone path hin] at hkind
    cases hkind

/-- **An exact restore keeps to its list** if the versioned tree is closed: a versioned path below
a removed one is restored with it. -/
theorem exact_listed (h : RestoreApplied P chunkSize s tree m root .exact live middle live')
    (hplanned : RestorePlanned P chunkSize s tree m root .exact live actions)
    (hclosed : Closed m root) : LossesListed actions live live' := by
  intro p hp hgone
  obtain ⟨q, kind, hdiff, hdoomed, hq, hin⟩ := h.doomed hp hgone
  have hbelow : location root <+: p := ((h.status_root.within_iff hq).mp hdiff.1).trans hin
  obtain ⟨path, hpath, rfl⟩ := h.comparable.scannable.exists_canonical hbelow hp (by
    rintro rfl
    exact location_ne hq (List.prefix_nil.mp hin))
  refine ⟨path, pathText_location hpath, ?_⟩
  have hwithin : pathIsWithin path root = true := (h.status_root.within_iff hpath).mpr hbelow
  have hpathq : pathIsWithin path q = true :=
    ((statusRoot_of_canonical hq).within_iff hpath).mpr hin
  cases he : entryAt m path with
  | none =>
    have hview : (live.viewAt path).isSome := by
      rw [viewAt_of_canonical hpath, isSome_view]
      exact hp
    obtain ⟨v, hv⟩ := Option.isSome_iff_exists.mp hview
    exact hplanned.listed ⟨hwithin, change_added he hv⟩ (.inr ⟨rfl, rfl⟩)
  | some e =>
    have hversioned := hclosed path q hwithin (by rw [he]; rfl) hq hpathq hdiff.1
    obtain ⟨w, hw, -⟩ := h.placed hdiff (hdiff.sides.not_added hversioned) hq hpathq he
    rw [view, hgone] at hw
    cases hw

/-- Where paths are canonical, what is rewritten is inside a changed path. -/
lemma Rewritten.changed (hcanonical : AllCanonical m root)
    (h : Rewritten P chunkSize s tree m live root path) :
    ∃ c kind, Differs P chunkSize s tree m live root c kind ∧ kind ≠ .added ∧
      pathIsWithin path c = true ∧ pathIsWithin path root = true := by
  obtain ⟨c, kind, r, hdiff, hkind, hr, hin⟩ := h
  have hc := hcanonical c hdiff.1 (hdiff.sides.versioned hkind)
  rw [hc.path_eq] at hr
  cases hr
  exact ⟨c, kind, hdiff, hkind, hin, hc.within_trans hin hdiff.1⟩

lemma Rewritten.canonical (hcanonical : AllCanonical m root)
    (h : Rewritten P chunkSize s tree m live root path) (he : entryAt m path = some e) :
    Canonical path := by
  obtain ⟨-, -, -, -, -, hwithin⟩ := h.changed hcanonical
  exact hcanonical path hwithin (by rw [he]; rfl)

/-- The entries that are rewritten have places of their own. -/
lemma apart_of_canonical (hcanonical : AllCanonical m root) :
    Apart fun path e => Rewritten P chunkSize s tree m live root path ∧
      entryAt m path = some e := by
  rintro path e path' e' ⟨h, he⟩ ⟨h', he'⟩ heq
  cases location_injective (h.canonical hcanonical he) (h'.canonical hcanonical he') heq
  rw [he] at he'
  exact ⟨rfl, Option.some.inj he'⟩

section

variable (h : RestoreApplied P chunkSize s tree m root mode live middle live')
include h

/-- A restore touches only what is inside the root. -/
lemma RestoreApplied.outside (hcanonical : AllCanonical m root) {q : LivePath}
    (hq : ¬ location root <+: q) : live'.view q = live.view q := by
  rw [h.restored.frame q, h.removed.kept q]
  · rintro ⟨path, kind, hdiff, hdoomed, hin⟩
    have hpath := hdiff.sides.canonical_of_doomed hdoomed
    exact hq (((h.status_root.within_iff hpath).mp hdiff.1).trans hin)
  · rintro path e ⟨hrewritten, he⟩ rfl
    obtain ⟨-, -, -, -, -, hwithin⟩ := hrewritten.changed hcanonical
    exact hq ((h.status_root.within_iff (hrewritten.canonical hcanonical he)).mp hwithin)

/-- A rewritten path has not changed afterwards just when it can be restored. -/
lemma RestoreApplied.rewritten (hcanonical : AllCanonical m root)
    (hdiff : Differs P chunkSize s tree m live root c kind) (hkind : kind ≠ .added)
    (hin : pathIsWithin path c = true) (he : entryAt m path = some e) :
    changeAt P chunkSize s tree m live' path = .ok none ↔ Restorable P chunkSize s tree path e := by
  have hc := hcanonical c hdiff.1 (hdiff.sides.versioned hkind)
  have hpath := hcanonical path (hc.within_trans hin hdiff.1) (by rw [he]; rfl)
  obtain ⟨v, hv, hview⟩ := h.restored.image (apart_of_canonical hcanonical) path e
    ⟨⟨c, kind, c, hdiff, hkind, hc.path_eq, hin⟩, he⟩
  rw [← pathChange_restoredView hv, changeAt, he, viewAt_of_canonical hpath, hview]

/-- A change that is no error is a change of some kind. -/
lemma RestoreApplied.differs (hin : pathIsWithin c root = true)
    (hchange : changeAt P chunkSize s tree m live c ≠ .ok none) :
    ∃ kind, Differs P chunkSize s tree m live root c kind := by
  obtain ⟨k, hk⟩ := h.comparable.compares c hin
  cases k with
  | none => exact absurd hk hchange
  | some kind => exact ⟨kind, hin, hk⟩

end

variable (h : RestoreApplied P chunkSize s tree m root .exact live middle live')
include h

/-- A comparison without changes forces the tree to be safe. -/
lemma RestoreApplied.safe
    (hnone : ∀ path, pathIsWithin path root = true →
      changeAt P chunkSize s tree m live' path = .ok none) :
    ExactSafe P chunkSize s tree m live root := by
  -- every versioned path is live now
  have hlive : ∀ path, pathIsWithin path root = true → (entryAt m path).isSome →
      (live'.viewAt path).isSome := by
    intro path hin hsome
    obtain ⟨e, he⟩ := Option.isSome_iff_exists.mp hsome
    by_contra hmissing
    have hchange := hnone path hin
    rw [changeAt, he, Option.not_isSome_iff_eq_none.mp hmissing] at hchange
    cases hchange
  have hcanonical : AllCanonical m root :=
    fun path hin hsome => canonical_of_viewAt (hlive path hin hsome)
  refine ⟨hcanonical, fun path q hin hsome hq hwithin hqroot => ?_,
    fun c path e hin hsome hchange hwithin he => ?_⟩
  · -- so is every directory above it, and it would be reported as added
    have hpath := hcanonical path hin hsome
    have hpresent := hlive path hin hsome
    rw [viewAt_of_canonical hpath, isSome_view] at hpresent
    have habove := live'.shaped.present
      (((statusRoot_of_canonical hq).within_iff hpath).mp hwithin) hpresent
    rw [← isSome_view, ← viewAt_of_canonical hq] at habove
    obtain ⟨v, hv⟩ := Option.isSome_iff_exists.mp habove
    by_contra hmissing
    have hadded : changeAt P chunkSize s tree m live' q = .ok (some .added) :=
      change_added (Option.not_isSome_iff_eq_none.mp hmissing) hv
    rw [hnone q hqroot] at hadded
    cases hadded
  · obtain ⟨kind, hdiff⟩ := h.differs hin hchange
    have hc := hcanonical c hin hsome
    refine (h.rewritten hcanonical hdiff (hdiff.sides.not_added hsome) hwithin he).mp ?_
    exact hnone path (hc.within_trans hwithin hin)

/-- What was not versioned is gone. -/
lemma RestoreApplied.unversioned (hsafe : ExactSafe P chunkSize s tree m live root)
    (hin : pathIsWithin path root = true) (he : entryAt m path = none) :
    live'.viewAt path = none := by
  by_contra hsome
  have hpath := canonical_of_viewAt (Option.isSome_iff_ne_none.mpr hsome)
  rw [viewAt_of_canonical hpath] at hsome
  -- no entry is written there
  rw [h.restored.frame] at hsome
  · by_cases hdoomed : ∃ q kind, Differs P chunkSize s tree m live root q kind ∧
        Doomed .exact kind ∧ location q <+: location path
    · exact hsome (h.removed.gone _ hdoomed)
    rw [h.removed.kept _ hdoomed, ← viewAt_of_canonical hpath] at hsome
    obtain ⟨v, hv⟩ := Option.ne_none_iff_exists'.mp hsome
    exact hdoomed ⟨path, .added, ⟨hin, change_added he hv⟩, .inr ⟨rfl, rfl⟩, List.prefix_rfl⟩
  · rintro path' e ⟨hrewritten, he'⟩ hloc
    cases location_injective (hrewritten.canonical hsafe.canonical he') hpath hloc
    rw [he] at he'
    cases he'

/-- A versioned path outside of all changed ones is as it was. -/
lemma RestoreApplied.untouched (hsafe : ExactSafe P chunkSize s tree m live root)
    (hin : pathIsWithin path root = true) (hsome : (entryAt m path).isSome)
    (hout : ∀ c kind, Differs P chunkSize s tree m live root c kind → kind ≠ .added →
      pathIsWithin path c = false) : live'.viewAt path = live.viewAt path := by
  have hpath := hsafe.canonical path hin hsome
  rw [viewAt_of_canonical hpath, viewAt_of_canonical hpath, h.restored.frame,
    h.removed.kept]
  · -- a removed path above it would be versioned, and so changed
    rintro ⟨q, kind, hdiff, hdoomed, hunder⟩
    have hq := hdiff.sides.canonical_of_doomed hdoomed
    have hwithin := ((statusRoot_of_canonical hq).within_iff hpath).mpr hunder
    have hversioned := hsafe.closed path q hin hsome hq hwithin hdiff.1
    rw [hout q kind hdiff (hdiff.sides.not_added hversioned)] at hwithin
    cases hwithin
  · rintro path' e ⟨hrewritten, he'⟩ hloc
    cases location_injective (hrewritten.canonical hsafe.canonical he') hpath hloc
    obtain ⟨c, kind, hdiff, hkind, hwithin, -⟩ := hrewritten.changed hsafe.canonical
    rw [hout c kind hdiff hkind] at hwithin
    cases hwithin

/-- After an exact restore from a safe tree nothing differs. -/
lemma RestoreApplied.unchanged (hsafe : ExactSafe P chunkSize s tree m live root)
    (hin : pathIsWithin path root = true) :
    changeAt P chunkSize s tree m live' path = .ok none := by
  cases he : entryAt m path with
  | none => exact changeAt_none he (h.unversioned hsafe hin he)
  | some e =>
    by_cases hchanged : ∃ c kind, Differs P chunkSize s tree m live root c kind ∧
        kind ≠ .added ∧ pathIsWithin path c = true
    · obtain ⟨c, kind, hdiff, hkind, hwithin⟩ := hchanged
      refine (h.rewritten hsafe.canonical hdiff hkind hwithin he).mpr ?_
      refine hsafe.restorable c path e hdiff.1 (hdiff.sides.versioned hkind) ?_
        hwithin he
      rw [hdiff.2]
      nofun
    · have hout : ∀ c kind, Differs P chunkSize s tree m live root c kind → kind ≠ .added →
          pathIsWithin path c = false := fun c kind hdiff hkind => by
        by_contra hwithin
        exact hchanged ⟨c, kind, hdiff, hkind, by simpa using hwithin⟩
      have hsame := h.untouched hsafe hin (by rw [he]; rfl) hout
      rw [changeAt, hsame]
      by_contra hchange
      obtain ⟨kind, hdiff⟩ := h.differs hin hchange
      have hself := hout path kind hdiff (hdiff.sides.not_added (by rw [he]; rfl))
      rw [pathIsWithin_refl] at hself
      cases hself

/-- The subtree can be scanned after a restore. -/
lemma RestoreApplied.scannable (hsafe : ExactSafe P chunkSize s tree m live root) :
    live'.Scannable root := by
  refine ⟨resolves_congr (fun q hq hne => ?_) h.comparable.scannable.resolves,
    fun p hin hsome => ?_⟩
  · refine h.outside hsafe.canonical fun hbelow => hne ?_
    exact hq.eq_of_length (Nat.le_antisymm hq.length_le hbelow.length_le)
  -- a new path has a text, and so had all others
  rw [← isSome_view] at hsome
  by_cases hplace : ∃ path, location path = p
  · obtain ⟨path, rfl⟩ := hplace
    rw [location, pathText_eq_some.mpr ⟨pathComponents path, rfl, rfl⟩]
    rfl
  · rw [h.restored.frame p fun path _ _ hloc => hplace ⟨path, hloc⟩] at hsome
    refine h.comparable.scannable.texts p hin ?_
    rw [← isSome_view]
    by_contra hmissing
    by_cases hdoomed : ∃ q kind, Differs P chunkSize s tree m live root q kind ∧
        Doomed .exact kind ∧ location q <+: p
    · rw [h.removed.gone p hdoomed] at hsome
      cases hsome
    · rw [h.removed.kept p hdoomed] at hsome
      exact hmissing hsome

/-- **An exact restore leaves no difference** just when the tree is safe. -/
theorem exact_unchanged_iff :
    treeChanges P chunkSize s tree live' root = .ok [] ↔
      ExactSafe P chunkSize s tree m live root := by
  rw [treeChanges_nil_iff h.status_root h.comparable.load]
  constructor
  · rintro ⟨-, -, hnone⟩
    exact h.safe hnone
  · intro hsafe
    exact ⟨h.comparable.decodes, h.scannable hsafe, fun path hin => h.unchanged hsafe hin⟩

end

/-! ## What is expected of a restore -/

section

variable {Id T : Type} [ObjectId Id] {env : Env Id}

/-- What is expected of a restore that left `live'`: after an exact one nothing differs from the
version, and whatever is gone is listed in every preview that has the token. -/
structure RestoreLaws (P : Prolly env) (H : RestoreHash Id T) (chunkSize : Nat) (s : Store Id)
    (live live' : Live) (reference root : String) (mode : VersionRestoreMode) (token : T) :
    Prop where
  same : mode = .exact → ∃ status,
    workingTreeStatus P chunkSize s live' reference root = .ok status ∧ status.changes = []
  listed : ∀ (store : Store Id) (seen : Live) (reference' root' : String)
    (mode' : VersionRestoreMode) (preview : VersionRestorePreview Id T),
    previewRestore P H chunkSize store seen reference' root' mode' = .ok preview →
      preview.token = token → LossesListed preview.actions live live'

/-- When a restore does what is expected. -/
def RestoreSafe (P : Prolly env) (chunkSize : Nat) (s : Objects Id) (tree : Root Id)
    (m : Contents Id) (live : Live) (root : String) : VersionRestoreMode → Prop
  | .exact => ExactSafe P chunkSize s tree m live root
  | .overlay => OverlaySafe m live root

variable {P : Prolly env} {H : RestoreHash Id T} {chunkSize : Nat} {s : Store Id}
  {live live' : Live} {reference root : String} {mode : VersionRestoreMode}

lemma previewRestore_ok {preview : VersionRestorePreview Id T}
    (h : previewRestore P H chunkSize s live reference root mode = .ok preview) :
    ∃ commit inner changes fingerprint, s.resolveCommit reference = .ok commit ∧
      canonicalStatusRoot root = .ok inner ∧
      treeChanges P chunkSize s.toObjects commit.tree live inner = .ok changes ∧
      preview.commit = commit.id ∧ preview.root = inner ∧
      preview.actions = changes.filterMap (restoreAction mode) ∧
      preview.token = H.token ⟨commit.id, inner, mode, fingerprint, preview.actions⟩ := by
  unfold previewRestore workingTreeStatus at h
  simp only [bind_eq_ok] at h
  obtain ⟨_, ⟨commit, hcommit, inner, hinner, changes, hchanges, ⟨⟩⟩, entries, -, ⟨⟩⟩ := h
  exact ⟨commit, inner, changes, _, hcommit, hinner, hchanges, rfl, rfl, rfl, rfl⟩

/-- **What a successful restore did.** -/
theorem applyRestore_ok [DecidableEq T] {now : Timespec} {token : T}
    {info : VersionRestoreApplyInfo Id T}
    (h : applyRestore P H chunkSize s now live reference root mode token = .ok (info, live')) :
    ∃ commit inner m preview middle, ∃ changes : List VersionWorkingTreeChange,
      s.resolveCommit reference = .ok commit ∧ canonicalStatusRoot root = .ok inner ∧
      previewRestore P H chunkSize s live reference root mode = .ok preview ∧
      preview.token = token ∧ preview.actions = changes.filterMap (restoreAction mode) ∧
      (∀ path kind, ⟨path, kind⟩ ∈ changes ↔
        Differs P chunkSize s.toObjects commit.tree m live inner path kind) ∧
      RestoreApplied P chunkSize s.toObjects commit.tree m inner mode live middle live' := by
  unfold applyRestore at h
  simp only [↓then_eq_ok, bind_eq_ok, refuseIf_eq_ok, not_not, ne_eq] at h
  obtain ⟨preview, hpreview, htoken, commit, hcommit, changes, hchanges, middle, hmiddle, paths,
    hpaths, restored, hrestored, hlast⟩ := h
  cases hlast
  obtain ⟨commit', inner, changes', _, hresolve, hinner, hchanges', hid, hroot, hactions, -⟩ :=
    previewRestore_ok hpreview
  -- the commit of the preview is found again by its id
  have hsame : commit = commit' := by
    rw [hid] at hcommit
    obtain ⟨hcid, hbody⟩ := Objects.getCommit_eq_ok.mp hcommit
    rw [Store.resolveCommit_stored hresolve] at hbody
    cases commit
    cases commit'
    exact congr (congrArg _ (Option.some.inj hbody).symm) hcid
  subst hsame
  rw [hroot, hchanges'] at hchanges
  cases hchanges
  have hstatus := canonicalStatusRoot_ok hinner
  obtain ⟨m, hcomparable, hreported⟩ := treeChanges_ok hstatus hchanges'
  have hdiffers : ∀ path kind, ⟨path, kind⟩ ∈ changes ↔
    Differs P chunkSize s.toObjects commit.tree m live inner path kind := hreported
  rw [hactions] at hmiddle hpaths
  obtain ⟨hcanonical, hcovered⟩ := covered_restorePaths hpaths
  refine ⟨commit, inner, m, preview, middle, changes, hresolve, hinner, hpreview, htoken, hactions,
    hdiffers, hstatus, hcomparable, ?_, ?_⟩
  · have hremoved := removeSubtrees_ok (fun path hpath => ?_) hmiddle
    · refine hremoved.of_present (fun q hq => ?_) (fun q hq _ => ?_)
      · obtain ⟨path, hpath, hin⟩ := hq
        obtain ⟨kind, hkind, hdoomed⟩ := mem_removalPaths.mp hpath
        exact ⟨path, kind, (hdiffers path kind).mp hkind, hdoomed, hin⟩
      · obtain ⟨path, kind, hdiff, hdoomed, hin⟩ := hq
        exact ⟨path, mem_removalPaths.mpr ⟨kind, (hdiffers path kind).mpr hdiff, hdoomed⟩, hin⟩
    · obtain ⟨kind, hkind, hdoomed⟩ := mem_removalPaths.mp hpath
      exact ((hdiffers path kind).mp hkind).sides.canonical_of_doomed hdoomed
  · have hfiles := restoreFiles_ok hcomparable.load hcanonical hrestored
    have hE : (fun path e => (∃ r ∈ paths, pathIsWithin path r = true) ∧ entryAt m path = some e) =
        fun path e => Rewritten P chunkSize s.toObjects commit.tree m live inner path ∧
          entryAt m path = some e := by
      funext path e
      rw [hcovered path, Rewritten]
      simp only [hdiffers]
    rw [← hE]
    exact hfiles

/-- Previews with one token have one list of actions. -/
lemma actions_of_token (hH : Function.Injective H.token) {s' : Store Id} {live₀ : Live}
    {reference' root' : String} {mode' : VersionRestoreMode}
    {preview preview' : VersionRestorePreview Id T}
    (h : previewRestore P H chunkSize s live reference root mode = .ok preview)
    (h' : previewRestore P H chunkSize s' live₀ reference' root' mode' = .ok preview')
    (htoken : preview'.token = preview.token) : preview'.actions = preview.actions := by
  obtain ⟨_, _, _, _, -, -, -, -, -, -, ht⟩ := previewRestore_ok h
  obtain ⟨_, _, _, _, -, -, -, -, -, -, ht'⟩ := previewRestore_ok h'
  rw [ht, ht'] at htoken
  exact congrArg VersionRestorePlanFingerprint.actions (hH htoken)

/-- A status without changes, in terms of the tree. -/
lemma status_same_iff {commit : VersionCommit Id} {inner : String}
    (hcommit : s.resolveCommit reference = .ok commit)
    (hinner : canonicalStatusRoot root = .ok inner) :
    (∃ status, workingTreeStatus P chunkSize s live reference root = .ok status ∧
      status.changes = []) ↔
        treeChanges P chunkSize s.toObjects commit.tree live inner = .ok [] := by
  unfold workingTreeStatus
  rw [hcommit, hinner]
  constructor
  · rintro ⟨status, h, hnil⟩
    simp only [bind_eq_ok] at h
    obtain ⟨_, ⟨⟩, _, ⟨⟩, changes, hchanges, ⟨⟩⟩ := h
    rw [hchanges]
    exact congrArg _ hnil
  · intro h
    exact ⟨_, bind_eq_ok.mpr ⟨_, rfl, bind_eq_ok.mpr ⟨_, rfl, bind_eq_ok.mpr ⟨[], h, rfl⟩⟩⟩, rfl⟩

/-- After an exact restore that leaves no difference, what was there before was safe. -/
lemma exactSafe_of_same [DecidableEq T] {now : Timespec} {token : T}
    {info : VersionRestoreApplyInfo Id T} {commit : VersionCommit Id} {inner : String}
    {m : Contents Id}
    (h : applyRestore P H chunkSize s now live reference root .exact token = .ok (info, live'))
    (hcommit : s.resolveCommit reference = .ok commit)
    (hinner : canonicalStatusRoot root = .ok inner)
    (hload : P.load s.nodes.get? commit.tree = .ok m)
    (hsame : ∃ status, workingTreeStatus P chunkSize s live' reference root = .ok status ∧
      status.changes = []) :
    ExactSafe P chunkSize s.toObjects commit.tree m live inner := by
  obtain ⟨commit', inner', m', _, _, _, hcommit', hinner', -, -, -, -, happlied⟩ :=
    applyRestore_ok h
  obtain rfl := Except.ok.inj (hcommit.symm.trans hcommit')
  obtain rfl := Except.ok.inj (hinner.symm.trans hinner')
  obtain rfl := Except.ok.inj (hload.symm.trans happlied.comparable.load)
  exact (exact_unchanged_iff happlied).mp ((status_same_iff hcommit hinner).mp hsame)

/-- **What a successful restore is worth.** It does what is expected just when, for an exact one,
the versioned tree comes with the directories above its paths and what is rewritten can be
restored; for an overlay, no live directory with entries is replaced by a file or a link. -/
theorem restore_laws_iff [DecidableEq T] (hH : Function.Injective H.token) {now : Timespec}
    {token : T} {info : VersionRestoreApplyInfo Id T}
    (h : applyRestore P H chunkSize s now live reference root mode token = .ok (info, live')) :
    ∃ commit inner m, s.resolveCommit reference = .ok commit ∧
      canonicalStatusRoot root = .ok inner ∧ P.load s.nodes.get? commit.tree = .ok m ∧
      (RestoreLaws P H chunkSize s live live' reference root mode token ↔
        RestoreSafe P chunkSize s.toObjects commit.tree m live inner mode) := by
  obtain ⟨commit, inner, m, preview, middle, changes, hcommit, hinner, hpreview, htoken, hactions,
    hdiffers, happlied⟩ := applyRestore_ok h
  refine ⟨commit, inner, m, hcommit, hinner, happlied.comparable.load, ?_⟩
  have hplanned : RestorePlanned P chunkSize s.toObjects commit.tree m inner mode live
      preview.actions := by
    intro path a
    rw [hactions, mem_actions]
    simp only [hdiffers]
  subst htoken
  cases mode with
  | exact =>
    constructor
    · intro hlaws
      exact exactSafe_of_same h hcommit hinner happlied.comparable.load (hlaws.same rfl)
    · intro hsafe
      refine ⟨fun _ => (status_same_iff hcommit hinner).mpr
        ((exact_unchanged_iff happlied).mpr hsafe),
        fun _ _ _ _ _ preview' hpreview' htoken => ?_⟩
      rw [actions_of_token hH hpreview hpreview' htoken]
      exact exact_listed happlied hplanned hsafe.closed
  | overlay =>
    constructor
    · intro hlaws
      exact (overlay_listed_iff happlied hplanned).mp
        (hlaws.listed s live reference root .overlay preview hpreview rfl)
    · intro hsafe
      refine ⟨nofun, fun _ _ _ _ _ preview' hpreview' htoken => ?_⟩
      rw [actions_of_token hH hpreview hpreview' htoken]
      exact (overlay_listed_iff happlied hplanned).mpr hsafe

end

namespace Digest

/-- Plans are their own tokens. -/
def restoreHash : RestoreHash Digest (VersionRestorePlanFingerprint Digest) :=
  ⟨fun entries => entries.map fun e => .ofNat e.2.mode, id⟩

/-- Preview a restore and apply it. -/
def restoreNow (s : Store Digest) (live : Live) (mode : VersionRestoreMode) :
    Except Error (VersionRestorePreview Digest (VersionRestorePlanFingerprint Digest) × Live) := do
  let preview ← previewRestore (.flat env) restoreHash 1 s live "main" "/" mode
  let applied ← applyRestore (.flat env) restoreHash 1 s ⟨0, 0⟩ live "main" "/" mode
    preview.token
  return (preview, applied.2)

/-- A file in a directory. -/
def liveNested : Live := .ofNodes (OrdMap.insertAll ∅ [([], dirNode), ([textName ['a']], dirNode),
  ([textName ['a'], textName ['x']], fileNode [5])]) 1 (by decide +kernel)

/-- Only the file is versioned, without its directory. -/
def orphanStore : Store Digest :=
  (performed (.commit liveNested ⟨"main", ["a/x"], "", ⟨who, who_checked⟩, none⟩)
    (Store.empty emptyStore.identity)).2

/-- A version of a file that has changed since. -/
def fiveStore : Store Digest :=
  (performed (.commit liveFive (commitOn "main")) (Store.empty emptyStore.identity)).2

lemma restoreNow_ok {s : Store Digest} {live : Live} {mode : VersionRestoreMode}
    {p : VersionRestorePreview Digest (VersionRestorePlanFingerprint Digest) × Live → Bool}
    (h : (restoreNow s live mode).toOption.any p = true) :
    ∃ preview info live', p (preview, live') = true ∧
      previewRestore (.flat env) restoreHash 1 s live "main" "/" mode = .ok preview ∧
      applyRestore (.flat env) restoreHash 1 s ⟨0, 0⟩ live "main" "/" mode preview.token =
        .ok (info, live') := by
  obtain ⟨r, hok, hp⟩ := exists_ok_of_any h
  obtain ⟨preview, hpreview, hok⟩ := bind_eq_ok.mp hok
  obtain ⟨⟨info, live'⟩, happlied, ⟨⟩⟩ := bind_eq_ok.mp hok
  exact ⟨preview, info, live', hp, hpreview, happlied⟩

end Digest

open Digest in
/-- An exact restore of a tree that holds a file without its directory deletes the directory, which
was added, and the unchanged file in it with it. -/
theorem exact_restore_loses_file : ∃ preview info live',
    previewRestore (.flat env) restoreHash 1 orphanStore liveNested "main" "/" .exact =
      .ok preview ∧
    applyRestore (.flat env) restoreHash 1 orphanStore ⟨0, 0⟩ liveNested "main" "/" .exact
      preview.token = .ok (info, live') ∧
    ¬ LossesListed preview.actions liveNested live' ∧
    ¬ ∃ status, workingTreeStatus (.flat env) 1 orphanStore live' "main" "/" = .ok status ∧
      status.changes = [] := by
  have hrun : ((restoreNow orphanStore liveNested .exact).toOption.any fun r =>
      r.1.actions = [⟨"/a", .delete⟩] &&
      r.2.nodes.get? [textName ['a'], textName ['x']] = none &&
      (workingTreeStatus (.flat env) 1 orphanStore r.2 "main" "/").toOption.all fun status =>
        status.changes ≠ []) = true := by decide +kernel
  obtain ⟨preview, info, live', hp, hpreview, happlied⟩ := restoreNow_ok hrun
  simp only [Bool.and_eq_true, decide_eq_true_eq] at hp
  obtain ⟨⟨hactions, hgone⟩, hstatus⟩ := hp
  refine ⟨preview, info, live', hpreview, happlied, fun hlisted => ?_, ?_⟩
  · obtain ⟨path, htext, hmem⟩ := hlisted [textName ['a'], textName ['x']] (by decide +kernel) hgone
    have hpath : pathText [textName ['a'], textName ['x']] = some "/a/x" := by decide +kernel
    cases htext
    rw [hactions] at hmem
    exact absurd hmem (by decide)
  · rintro ⟨status, hok, hnil⟩
    rw [hok] at hstatus
    simp only [Except.toOption, Option.all_some, decide_eq_true_eq] at hstatus
    exact hstatus hnil

open Digest in
/-- A file that has changed is put back, and then nothing differs. -/
theorem changed_file_restored : ∃ token info live',
    applyRestore (.flat env) restoreHash 1 fiveStore ⟨0, 0⟩ liveSix "main" "/" .exact token =
      .ok (info, live') ∧
    live'.nodes.get? [textName ['f']] ≠ liveSix.nodes.get? [textName ['f']] ∧
    RestoreLaws (.flat env) restoreHash 1 fiveStore liveSix live' "main" "/" .exact token ∧
    ∃ commit inner m, fiveStore.resolveCommit "main" = .ok commit ∧
      canonicalStatusRoot "/" = .ok inner ∧
      (Prolly.flat env).load fiveStore.nodes.get? commit.tree = .ok m ∧
      RestoreSafe (.flat env) 1 fiveStore.toObjects commit.tree m liveSix inner .exact := by
  have hrun : ((restoreNow fiveStore liveSix .exact).toOption.any fun r =>
      r.2.nodes.get? [textName ['f']] ≠ liveSix.nodes.get? [textName ['f']] &&
      (workingTreeStatus (.flat env) 1 fiveStore r.2 "main" "/").toOption.any fun status =>
        status.changes = []) = true := by decide +kernel
  obtain ⟨preview, info, live', hp, -, happlied⟩ := restoreNow_ok hrun
  simp only [Bool.and_eq_true, decide_eq_true_eq] at hp
  obtain ⟨hchanged, hstatus⟩ := hp
  obtain ⟨status, hok, hnil⟩ := exists_ok_of_any hstatus
  obtain ⟨commit, inner, m, hcommit, hinner, hload, hiff⟩ :=
    restore_laws_iff Function.injective_id happlied
  have hsafe := exactSafe_of_same happlied hcommit hinner hload
    ⟨status, hok, decide_eq_true_eq.mp hnil⟩
  exact ⟨preview.token, info, live', happlied, hchanged, hiff.mpr hsafe, commit, inner, m,
    hcommit, hinner, hload, hsafe⟩

end SlateFs.Version
