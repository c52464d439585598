import SlateFs.Version.Guarded
import SlateFs.Version.Read

/-!
# Runs that keep a repository sound

Verification asks of every commit that its id is the digest of its body, that it has at
most two different parents and that it lists changed paths, sorted and canonical. Three
calls make commits, each with its own list of paths: a commit lists what its caller
selected, a cherry-pick what its plan applies, a merge what differs between the target and
the merged tree.

Only the last list can be empty. A merge in which every change of the source is already
there, or gives way to the target, publishes a commit that changes nothing; the commit
fails verification, and with it the repository.
-/

namespace SlateFs.Version

open OrdMap Worklist Objects SlateFs.Version.Store

section

variable {Id : Type}

/-! ## Changed paths -/

lemma strictlySorted_iff {α : Type} [LinearOrder α] {xs : List α} :
    strictlySorted xs = true ↔ xs.Pairwise (· < ·) := by
  rw [← List.isChain_iff_pairwise]
  induction xs with
  | nil => exact ⟨fun _ => .nil, fun _ => rfl⟩
  | cons x xs ih =>
    cases xs with
    | nil => exact ⟨fun _ => .singleton x, fun _ => rfl⟩
    | cons y xs =>
      rw [strictlySorted, Bool.and_eq_true, decide_eq_true_eq, ih, List.isChain_cons_cons]

lemma canonical_of_key {key : TreeKey} {r : String × Bool}
    (h : versionPathFromTreeKey key = .ok r) : Canonical r.1 := by
  unfold versionPathFromTreeKey at h
  split at h
  · cases h
  rename_i hc
  cases h
  exact canonical_of_ok hc

/-- A path is recorded as changed. -/
def Recorded (paths : OrdMap String (Option VersionPathChangeKind × Bool)) (p : String) : Prop :=
  ∃ e, paths.get? p = some e ∧ (e.1.isSome ∨ e.2 = true)

lemma foldChange_ok {paths paths' : OrdMap String (Option VersionPathChangeKind × Bool)}
    {d : OrdMap.Diff TreeKey (TreeValue Id)} (h : foldChange paths d = .ok paths') :
    (∃ p, Recorded paths' p) ∧ (∀ p, Recorded paths p → Recorded paths' p) ∧
      ∀ p, (paths'.get? p).isSome → (paths.get? p).isSome ∨ Canonical p := by
  unfold foldChange at h
  split at h
  · cases h
  rename_i path metadata hpath
  have hcanonical : Canonical path := canonical_of_key hpath
  obtain ⟨e, he, rfl⟩ : ∃ e, (e.1.isSome ∨ e.2 = true) ∧ paths' = paths.insert path e := by
    cases h
    exact ⟨_, by cases metadata <;> simp, rfl⟩
  have hnew : Recorded (paths.insert path e) path := ⟨e, get?_insert_self .., he⟩
  refine ⟨⟨path, hnew⟩, fun p hp => ?_, fun p hp => ?_⟩
  · by_cases heq : p = path
    · exact heq ▸ hnew
    · obtain ⟨e, he, hrecorded⟩ := hp
      exact ⟨e, (get?_insert_of_ne _ _ heq).trans he, hrecorded⟩
  · by_cases heq : p = path
    · exact .inr (heq ▸ hcanonical)
    · rw [get?_insert_of_ne _ _ heq] at hp
      exact .inl hp

lemma foldChanges_ok : ∀ {ds : List (OrdMap.Diff TreeKey (TreeValue Id))}
    {paths paths' : OrdMap String (Option VersionPathChangeKind × Bool)},
    ds.foldlM foldChange paths = .ok paths' →
      (ds ≠ [] → ∃ p, Recorded paths' p) ∧ (∀ p, Recorded paths p → Recorded paths' p) ∧
      ∀ p, (paths'.get? p).isSome → (paths.get? p).isSome ∨ Canonical p := by
  intro ds
  induction ds with
  | nil =>
    intro paths paths' h
    cases h
    exact ⟨fun h => absurd rfl h, fun _ h => h, fun _ h => .inl h⟩
  | cons d ds ih =>
    intro paths paths' h
    obtain ⟨paths₁, h₁, h⟩ := bind_eq_ok.mp h
    obtain ⟨⟨p, hp⟩, hkeep₁, hnew₁⟩ := foldChange_ok h₁
    obtain ⟨-, hkeep, hnew⟩ := ih h
    refine ⟨fun _ => ⟨p, hkeep p hp⟩, fun q hq => hkeep q (hkeep₁ q hq), fun q hq => ?_⟩
    rcases hnew q hq with hq | hq
    · exact hnew₁ q hq
    · exact .inr hq

variable [ObjectId Id] {env : Env Id} {P : Prolly env}

/-- **The paths of a difference** are sorted and canonical, and there are some if the trees
differ. -/
theorem diffTrees_ok {old new : Contents Id} {changes : List VersionPathChange}
    (h : diffTrees P old new = .ok changes) :
    (changes.map (·.path)).Pairwise (· < ·) ∧ (∀ p ∈ changes.map (·.path), Canonical p) ∧
      ((∃ k, old.get? k ≠ new.get? k) → changes ≠ []) := by
  rw [diffTrees, P.diff_eq] at h
  split at h
  · cases h
  rename_i paths hpaths
  cases h
  obtain ⟨hsome, -, hcanonical⟩ := foldChanges_ok hpaths
  -- An entry that is listed keeps its path.
  have hlisted : ∀ {e : String × Option VersionPathChangeKind × Bool} {c : VersionPathChange},
      ((e.2.1.or (if e.2.2 then some .modified else none)).map fun change =>
        (⟨e.1, change⟩ : VersionPathChange)) = some c → c.path = e.1 := by
    intro e c hc
    obtain ⟨change, -, rfl⟩ := Option.map_eq_some_iff.mp hc
    rfl
  refine ⟨?_, fun p hp => ?_, fun ⟨k, hk⟩ hnil => ?_⟩
  · rw [List.pairwise_map, List.pairwise_filterMap]
    refine paths.sorted.imp fun {e e'} hlt c hc c' hc' => ?_
    rw [hlisted hc, hlisted hc']
    exact hlt
  · obtain ⟨c, hc, rfl⟩ := List.mem_map.mp hp
    obtain ⟨e, he, hc⟩ := List.mem_filterMap.mp hc
    rw [hlisted hc]
    refine (hcanonical e.1 ?_).resolve_left nofun
    rw [mem_entries.mp he]
    rfl
  · obtain ⟨d, hd, -⟩ := OrdMap.exists_diff.mpr hk
    obtain ⟨p, e, he, hrecorded⟩ := hsome (List.ne_nil_of_mem hd)
    have := List.filterMap_eq_nil_iff.mp hnil (p, e) (mem_entries.mpr he)
    rw [Option.map_eq_none_iff, Option.or_eq_none_iff] at this
    rcases hrecorded with h | h
    · rw [this.1] at h
      cases h
    · rw [h] at this
      cases this.2

/-- The paths that a cherry-pick applies are sorted and canonical, and there are some if it changes
anything. -/
lemma cherryPickPlan_paths {base target source : Contents Id} {plan : CherryPickPlan Id}
    (h : cherryPickPlan P base target source = .ok plan) (hm : plan.mutations ≠ []) :
    plan.appliedPaths.Pairwise (· < ·) ∧ (∀ p ∈ plan.appliedPaths, Canonical p) ∧
      plan.appliedPaths ≠ [] := by
  have hp := cherryPickPlan_ok h
  refine ⟨hp.sorted, fun p hmem => ?_, ?_⟩
  · have htouched := ((hp.appliedPaths p).mp hmem).1
    obtain ⟨touched, ht, -⟩ := bind_eq_ok.mp h
    have hin := (mem_touched ht).mpr htouched
    rw [PathSet.mem_ofList, List.mem_map] at hin
    obtain ⟨r, hr, rfl⟩ := hin
    obtain ⟨d, -, hpath⟩ := (mem_mapM ht).mp hr
    exact canonical_of_key hpath
  · obtain ⟨mu, hmu⟩ := List.exists_mem_of_ne_nil _ hm
    exact List.ne_nil_of_mem ((hp.mutation mu).mp hmu).1

/-- **A merge brings a change**: on some key the source differs from the target, and either it
is the source alone that changed the key, on a path without a conflict, or conflicts go to the
source. -/
def Brings (strategy : VersionMergeConflictStrategy) (base target source : Contents Id) : Prop :=
  ∃ k, target.get? k ≠ source.get? k ∧
    ((¬ Meet base target source (logicalPath k) ∧ base.get? k = target.get? k) ∨
      (strategy = .theirs ∧ Meet base target source (logicalPath k)))

/-- A merged tree has the target's or the source's value under every key, and differs from the
target if the merge brings a change. -/
lemma merged_values {sourceName targetName : String} {strategy : VersionMergeConflictStrategy}
    {base target source merged : Contents Id}
    (h : resolveThreeWayMerge P sourceName targetName base target source strategy = .ok merged) :
    (∀ k, merged.get? k = target.get? k ∨ merged.get? k = source.get? k) ∧
      (Brings strategy base target source → ∃ k, target.get? k ≠ merged.get? k) := by
  have hresolved : ¬ (strategy = .fail ∧ ∃ p, Meet base target source p) := by
    rintro ⟨rfl, p, hp⟩
    have hrefused : ∃ e, resolveThreeWayMerge P sourceName targetName base target source .fail =
        .error e := resolve_refused hp
    obtain ⟨e, he⟩ := hrefused
    rw [he] at h
    cases h
  obtain ⟨m, hm, hvalue⟩ := resolve_eq sourceName targetName hresolved
  rw [hm] at h
  cases h
  refine ⟨fun k => ?_, ?_⟩
  · obtain ⟨htheirs, hours, hsource, htarget⟩ := hvalue k
    by_cases hmeet : Meet base target source (logicalPath k)
    · by_cases hs : strategy = .theirs
      · exact .inr (htheirs hmeet hs)
      · exact .inl (hours hmeet hs)
    · by_cases hb : base.get? k = target.get? k
      · exact .inr (hsource hmeet hb)
      · exact .inl (htarget hmeet hb)
  · rintro ⟨k, hne, ⟨hmeet, hb⟩ | ⟨hs, hmeet⟩⟩
    · exact ⟨k, by rw [(hvalue k).2.2.1 hmeet hb]; exact hne⟩
    · exact ⟨k, by rw [(hvalue k).1 hmeet hs]; exact hne⟩

end

/-! ## Sound repositories -/

section

variable {Id : Type} [ObjectId Id] {env : Env Id} {s s' : Store Id} {id : Id} {branch : String}
  {P : Prolly env} {m : Contents Id} {k : TreeKey} {b : BlobRef Id} {body : VersionCommitBody Id}
  {cfg : Settings Id} {now : Nat}

/-- A blob is there with the length of its reference. -/
def Objects.HasBlob (s : Objects Id) (b : BlobRef Id) : Prop :=
  ∃ bytes, s.blobs.get? b.cid = some bytes ∧ bytes.length = b.len

/-- All of a tree is there. -/
def Objects.Whole (s : Objects Id) (root : Id) : Prop :=
  ∀ n, Reach s.children (· = root) n →
    ∃ node, s.nodes.get? n = some node ∧ ∀ b ∈ node.blobRefs, s.HasBlob b

/-- **A sound repository**: objects are kept under their digests, commits are in order, with their
parents and their whole trees; references name commits that exist; attestations verify; and
protections are normal and have their quorum. -/
structure Sound (env : Env Id) (s : Store Id) : Prop where
  node : ∀ id n, s.nodes.get? id = some n → env.nodeDigest n = id
  blob : ∀ id bytes, s.blobs.get? id = some bytes → env.blobDigest bytes = id
  commit : ∀ id body, s.commits.get? id = some body → Objects.bundleCommit env id body = .ok ()
  parent : ∀ id body, s.commits.get? id = some body →
    ∀ p ∈ body.parents, (s.commits.get? p).isSome
  tree : ∀ id body r, s.commits.get? id = some body → body.tree = some r → s.Whole r
  head : ∀ b h, s.branches.get? b = some h →
    ∃ body, s.commits.get? h.commitId = some body ∧ h.tree = body.tree
  tag : ∀ t v, s.tags.get? t = some v → (s.commits.get? v.commitId).isSome
  reflog : ∀ k r, s.reflogs.get? k = some r → ∀ id ∈ r.commitIds, (s.commits.get? id).isSome
  attestation : ∀ k a, s.attestations.get? k = some a → (s.commits.get? (ofLex k).1).isSome ∧
    verifyVersionCommitAttestation env s.identity.id (ofLex k).1 (ofLex k).2 a = .ok ()
  normal : ∀ b p, s.protections.get? b = some p →
    normalizeTrustedAttestationKeys env p.trustedAttestationKeys = .ok p.trustedAttestationKeys ∧
      validateRequiredAttestations p.trustedAttestationKeys p.requiredAttestations = .ok ()
  guarded : WellGuarded s

lemma Sound.reachable (h : Sound env s) (hid : s.Reachable id) : (s.commits.get? id).isSome := by
  refine hid.mem_of_closed (S := fun id => (s.commits.get? id).isSome) (fun y hy => ?_)
    (fun y z _ hz => ?_)
  · rcases mem_roots.mp hy with ⟨b, v, hb, rfl⟩ | ⟨t, v, ht, rfl⟩ | hy
    · obtain ⟨body, hbody, -⟩ := h.head b v hb
      rw [hbody]
      rfl
    · exact h.tag t v ht
    · obtain ⟨e, he, hid⟩ := List.mem_flatMap.mp hy
      exact h.reflog e.1 e.2 (mem_entries.mp he) y hid
  · obtain ⟨body, hbody, hz⟩ := mem_follow.mp hz
    exact h.parent y body hbody z hz

/-- A node of some commits is in the tree of one. -/
lemma tree_of_nodeOf {C : Id → Prop} {n : Id} (h : s.NodeOf C n) :
    ∃ c body r, s.commits.get? c = some body ∧ body.tree = some r ∧ Reach s.children (· = r) n := by
  induction h with
  | root h =>
    obtain ⟨c, body, -, hbody, hr⟩ := h
    exact ⟨c, body, _, hbody, hr, .root rfl⟩
  | step _ hy ih =>
    obtain ⟨c, body, r, hbody, hr, hreach⟩ := ih
    exact ⟨c, body, r, hbody, hr, .step hreach hy⟩

/-- **A sound repository verifies.** -/
theorem Sound.verified (h : Sound env s) : Store.Verified env s where
  protection b p hp := by
    obtain ⟨head, hhead, hcount⟩ := h.guarded.guarded b p hp
    obtain ⟨hnormal, hrequired⟩ := h.normal b p hp
    exact verifyProtection_ok.mpr ⟨head, _, hhead, hnormal, hrequired, hcount⟩
  branch b v hb := verifyBranch_ok.mpr (h.head b v hb)
  tag t v ht := verifyTag_ok.mpr (h.tag t v ht)
  reflog id hid := by
    obtain ⟨e, he, hid⟩ := List.mem_flatMap.mp hid
    exact verifyReflog_ok.mpr (h.reflog e.1 e.2 (mem_entries.mp he) id hid)
  commit id hid := by
    have hsome : (s.commits.get? id).isSome := h.reachable hid
    obtain ⟨body, hbody⟩ := Option.isSome_iff_exists.mp hsome
    exact verifyCommit_isOk.mpr (.inl ⟨body, hbody, h.commit id body hbody⟩)
  attestation k a ha := verifyAttestation_ok.mpr (h.attestation k a ha)
  node n hn := by
    obtain ⟨c, body, r, hbody, hr, hreach⟩ := tree_of_nodeOf hn
    obtain ⟨node, hnode, -⟩ := h.tree c body r hbody hr n hreach
    rw [hnode]
    rfl
  blob n node hn hnode b hb := by
    obtain ⟨c, body, r, hbody, hr, hreach⟩ := tree_of_nodeOf hn
    obtain ⟨node', hnode', hblobs⟩ := h.tree c body r hbody hr n hreach
    rw [hnode] at hnode'
    cases hnode'
    obtain ⟨bytes, hbytes, hlen⟩ := hblobs b hb
    exact verifyBlob_ok.mpr ⟨bytes, hbytes, h.blob _ _ hbytes, hlen⟩

/-! ## One call -/

/-- Objects are only added. -/
structure Extends (s s' : Objects Id) : Prop where
  node : ∀ id n, s.nodes.get? id = some n → s'.nodes.get? id = some n
  blob : ∀ id bytes, s.blobs.get? id = some bytes → s'.blobs.get? id = some bytes
  commit : ∀ id body, s.commits.get? id = some body → s'.commits.get? id = some body

lemma Extends.same {s s' : Objects Id} (hn : s'.nodes = s.nodes) (hb : s'.blobs = s.blobs)
    (hc : s'.commits = s.commits) : Extends s s' :=
  ⟨fun _ _ h => hn ▸ h, fun _ _ h => hb ▸ h, fun _ _ h => hc ▸ h⟩

lemma Extends.isSome {s s' : Objects Id} (h : Extends s s') (hid : (s.commits.get? id).isSome) :
    (s'.commits.get? id).isSome := by
  obtain ⟨body, hbody⟩ := Option.isSome_iff_exists.mp hid
  rw [h.commit id body hbody]
  rfl

lemma Extends.hasBlob {s s' : Objects Id} (h : Extends s s') (hb : s.HasBlob b) : s'.HasBlob b := by
  obtain ⟨bytes, hbytes, hlen⟩ := hb
  exact ⟨bytes, h.blob _ _ hbytes, hlen⟩

lemma mem_children {s : Objects Id} {x y : Id} {node : Node Id}
    (hx : s.nodes.get? x = some node) : y ∈ s.children x ↔ y ∈ node.children := by
  unfold children follow
  rw [hx]

lemma Extends.whole {s s' : Objects Id} (h : Extends s s') {r : Id} (hr : s.Whole r) :
    s'.Whole r := by
  intro n hn
  have hold : Reach s.children (· = r) n := by
    induction hn with
    | root hroot => exact .root hroot
    | step _ hy ih =>
      obtain ⟨node, hnode, -⟩ := hr _ ih
      rw [mem_children (h.node _ _ hnode)] at hy
      exact .step ih ((mem_children hnode).mpr hy)
  obtain ⟨node, hnode, hblobs⟩ := hr n hold
  exact ⟨node, h.node _ _ hnode, fun b hb => h.hasBlob (hblobs b hb)⟩

/-- **What a call may add.** -/
structure Added (env : Env Id) (s s' : Store Id) : Prop where
  ext : Extends s.toObjects s'.toObjects
  node : ∀ id n, s'.nodes.get? id = some n → env.nodeDigest n = id
  blob : ∀ id bytes, s'.blobs.get? id = some bytes → env.blobDigest bytes = id
  commit : ∀ id body, s'.commits.get? id = some body → s.commits.get? id = some body ∨
    Objects.bundleCommit env id body = .ok () ∧ (∀ p ∈ body.parents, (s'.commits.get? p).isSome) ∧
      ∀ r, body.tree = some r → s'.Whole r
  head : ∀ b h, s'.branches.get? b = some h → s.branches.get? b = some h ∨
    ∃ body, s'.commits.get? h.commitId = some body ∧ h.tree = body.tree
  tag : ∀ t v, s'.tags.get? t = some v → s.tags.get? t = some v ∨
    (s'.commits.get? v.commitId).isSome
  reflog : ∀ k r, s'.reflogs.get? k = some r → s.reflogs.get? k = some r ∨
    ∀ id ∈ r.commitIds, (s'.commits.get? id).isSome
  identity : s'.identity = s.identity
  attestation : ∀ k a, s'.attestations.get? k = some a → s.attestations.get? k = some a ∨
    (s.commits.get? (ofLex k).1).isSome ∧
      verifyVersionCommitAttestation env s.identity.id (ofLex k).1 (ofLex k).2 a = .ok ()
  normal : ∀ b p, s'.protections.get? b = some p → s.protections.get? b = some p ∨
    normalizeTrustedAttestationKeys env p.trustedAttestationKeys = .ok p.trustedAttestationKeys ∧
      validateRequiredAttestations p.trustedAttestationKeys p.requiredAttestations = .ok ()

/-- **Soundness is kept.** -/
theorem Sound.add (h : Sound env s) (ha : Added env s s') (hg : WellGuarded s') : Sound env s' where
  node := ha.node
  blob := ha.blob
  commit id body hbody := by
    rcases ha.commit id body hbody with hold | ⟨hnew, -⟩
    · exact h.commit id body hold
    · exact hnew
  parent id body hbody p hp := by
    rcases ha.commit id body hbody with hold | ⟨-, hnew, -⟩
    · exact ha.ext.isSome (h.parent id body hold p hp)
    · exact hnew p hp
  tree id body r hbody hr := by
    rcases ha.commit id body hbody with hold | ⟨-, -, hnew⟩
    · exact ha.ext.whole (h.tree id body r hold hr)
    · exact hnew r hr
  head b head hb := by
    rcases ha.head b head hb with hold | hnew
    · obtain ⟨body, hbody, htree⟩ := h.head b head hold
      exact ⟨body, ha.ext.commit _ _ hbody, htree⟩
    · exact hnew
  tag t v ht := by
    rcases ha.tag t v ht with hold | hnew
    · exact ha.ext.isSome (h.tag t v hold)
    · exact hnew
  reflog k r hr id hid := by
    rcases ha.reflog k r hr with hold | hnew
    · exact ha.ext.isSome (h.reflog k r hold id hid)
    · exact hnew id hid
  attestation k a hk := by
    rw [ha.identity]
    rcases ha.attestation k a hk with hold | ⟨hc, hv⟩
    · obtain ⟨hc, hv⟩ := h.attestation k a hold
      exact ⟨ha.ext.isSome hc, hv⟩
    · exact ⟨ha.ext.isSome hc, hv⟩
  normal b p hp := by
    rcases ha.normal b p hp with hold | hnew
    · exact h.normal b p hold
    · exact hnew
  guarded := hg

lemma Sound.added_refl (h : Sound env s) : Added env s s where
  ext := .same rfl rfl rfl
  node := h.node
  blob := h.blob
  commit _ _ h := .inl h
  head _ _ h := .inl h
  tag _ _ h := .inl h
  reflog _ _ h := .inl h
  identity := rfl
  attestation _ _ h := .inl h
  normal _ _ h := .inl h

/-- A reflog that was appended to names commits that are stored. -/
lemma reflog_appended {o : Objects Id} {previous commit : Option Id} {action : VersionReflogAction}
    {reflogs : OrdMap (String ×ₗ Nat) (VersionReflogRecord Id)}
    (h : s.appendReflog cfg now branch previous commit action = .ok reflogs)
    (hprevious : ∀ id, previous = some id → (o.commits.get? id).isSome)
    (hcommit : ∀ id, commit = some id → (o.commits.get? id).isSome) (k : String ×ₗ Nat)
    (r : VersionReflogRecord Id) (hk : reflogs.get? k = some r) :
    s.reflogs.get? k = some r ∨ ∀ id ∈ r.commitIds, (o.commits.get? id).isSome := by
  rcases appendReflog_ok h hk with hold | ⟨-, rfl⟩
  · exact .inl hold
  refine .inr fun id hid => ?_
  rcases List.mem_append.mp hid with hid | hid
  · exact hprevious id (Option.mem_toList.mp hid)
  · exact hcommit id (Option.mem_toList.mp hid)

lemma Sound.head_isSome (h : Sound env s) (id : Id) (hid : s.head branch = some id) :
    (s.commits.get? id).isSome := by
  obtain ⟨head, hhead, rfl⟩ := Option.map_eq_some_iff.mp hid
  obtain ⟨body, hbody, -⟩ := h.head branch head hhead
  rw [hbody]
  rfl

/-- A call that moves a branch to a commit that is stored. -/
lemma Sound.added_move (h : Sound env s) {head' : VersionRef Id} {action : VersionReflogAction}
    {reflogs : OrdMap (String ×ₗ Nat) (VersionReflogRecord Id)}
    (hbody : s.commits.get? head'.commitId = some body) (htree : head'.tree = body.tree)
    (hlog : s.appendReflog cfg now branch (s.head branch) (some head'.commitId) action =
      .ok reflogs) :
    Added env s { s with branches := s.branches.insert branch head', reflogs := reflogs } := by
  refine { h.added_refl with
    ext := .same rfl rfl rfl
    head := fun b head hb => ?_
    reflog := reflog_appended hlog h.head_isSome fun id hid => ?_ }
  · rcases of_get?_insert hb with ⟨-, rfl⟩ | hb
    · exact .inr ⟨body, hbody, htree⟩
    · exact .inl hb
  · cases hid
    rw [hbody]
    rfl

/-- A call that moves references only. -/
def RepositoryCall.movesRefs : RepositoryCall env → Bool
  | .createTag .. | .deleteTag .. | .createBranch .. | .deleteBranch .. | .resetBranch ..
  | .recoverBranch .. | .setProtection .. | .attest .. | .pruneReflogs => true
  | _ => false

lemma Sound.added_effect (h : Sound env s) {cfg : SyncSettings Id} {call : RepositoryCall env}
    (hcall : call.movesRefs = true) (he : Effect cfg now call s s')
    (hputs : Puts env s s' → Added env s s') : Added env s s' := by
  -- such a call publishes nothing
  have hnone : ∀ name, call.publishes ≠ some name := by
    intro name hname
    cases call <;> first | (cases hname; done) | cases hcall
  cases he with
  | stored hstored => exact hputs hstored
  | published _ hbranch => exact absurd hbranch (hnone _)
  | forwarded hmerge => subst hmerge; cases hcall
  | tagged hc ht =>
    obtain ⟨-, rfl⟩ := createTag_ok ht
    refine { h.added_refl with
      ext := .same rfl rfl rfl
      tag := fun t v hv => ?_ }
    rcases of_get?_insert hv with ⟨-, rfl⟩ | hv
    · exact .inr hc
    · exact .inl hv
  | untagged ht =>
    obtain rfl := deleteTag_ok ht
    exact { h.added_refl with
      ext := .same rfl rfl rfl
      tag := fun _ _ h => .inl (get?_of_get?_erase h) }
  | branched hc hb =>
    obtain ⟨hc, -, -, hlog⟩ := createBranch_set hc hb
    exact h.added_move hc rfl hlog
  | deleted hb =>
    obtain ⟨-, -, reflogs, hlog, rfl⟩ := deleteBranch_ok hb
    -- the log names the head that was deleted, which is stored
    exact { h.added_refl with
      ext := .same rfl rfl rfl
      head := fun _ _ h => .inl (get?_of_get?_erase h)
      reflog := reflog_appended hlog h.head_isSome nofun }
  | reset hc hb =>
    obtain ⟨hc, -, -, hlog⟩ := resetBranch_set hc hb
    exact h.added_move hc rfl hlog
  | recovered hb =>
    obtain ⟨hc, -, -, hlog⟩ := recoverBranch_set hb
    exact h.added_move hc rfl hlog
  | @protection name isProtected policy _ _ _ hp =>
    obtain ⟨-, -, rfl⟩ := setBranchProtected_ok hp
    refine { h.added_refl with normal := fun b p hprotected => ?_ }
    unfold withProtection at hprotected
    cases isProtected with
    | false => exact .inl (get?_of_get?_erase hprotected)
    | true =>
      rcases of_get?_insert hprotected with ⟨-, rfl⟩ | hprotected
      · obtain ⟨keys, hkeys⟩ := policy.normalized
        exact .inr ⟨normalize_idem hkeys, policy.required⟩
      · exact .inl hprotected
  | @attested commit keyId attestation _ hc hv ha =>
    rcases putAttestation_ok ha with rfl | ⟨-, rfl⟩
    · exact h.added_refl
    refine { h.added_refl with
      ext := .same rfl rfl rfl
      attestation := fun k a hk => ?_ }
    rcases of_get?_insert hk with ⟨rfl, rfl⟩ | hk
    · refine .inr ⟨?_, hv⟩
      show (s.commits.get? commit.id).isSome
      rw [hc]
      rfl
    · exact .inl hk
  | pruned =>
    refine { h.added_refl with
      ext := .same rfl rfl rfl
      reflog := fun k r hr => ?_ }
    unfold pruneReflogs at hr
    simp only [get?_eraseAll] at hr
    split at hr
    · cases hr
    · exact .inl hr
  | collected hgc => subst hgc; cases hcall
  | synced hbranch => exact absurd hbranch (hnone _)
  | imported himport => subst himport; cases hcall

/-! ## Storing objects -/

/-- Storing objects under their digests replaces none. -/
lemma insertAll_digests {α : Type} {digest : α → Id} (hinj : Function.Injective digest)
    {m : OrdMap Id α} (hm : ∀ id x, m.get? id = some x → digest x = id) (xs : List α) :
    (∀ id x, m.get? id = some x → (m.insertAll (xs.map fun x => (digest x, x))).get? id = some x) ∧
      (∀ id x, (m.insertAll (xs.map fun x => (digest x, x))).get? id = some x → digest x = id) ∧
      ∀ x ∈ xs, (m.insertAll (xs.map fun x => (digest x, x))).get? (digest x) = some x := by
  refine ⟨fun id x hx => ?_, fun id x hx => ?_, fun x hx => ?_⟩
  · by_cases hid : ∃ e ∈ xs.map fun x => (digest x, x), e.1 = id
    · refine get?_insertAll_of_agree _ hid fun e he hk => ?_
      obtain ⟨x', -, rfl⟩ := List.mem_map.mp he
      exact hinj (hk.trans (hm id x hx).symm)
    · refine (get?_insertAll_of_not_mem _ fun hmem => ?_).trans hx
      obtain ⟨e, he, hk⟩ := List.mem_map.mp hmem
      exact hid ⟨e, he, hk⟩
  · rcases mem_of_get?_insertAll hx with hold | hnew
    · exact hm id x hold
    obtain ⟨x', -, heq⟩ := List.mem_map.mp hnew
    cases heq
    rfl
  · refine get?_insertAll_of_agree _ ⟨_, List.mem_map_of_mem hx, rfl⟩ fun e he hk => ?_
    obtain ⟨x', -, rfl⟩ := List.mem_map.mp he
    exact hinj hk

lemma Sound.added_puts (hinj : env.Injective) (h : Sound env s) (hputs : Puts env s s') :
    Added env s s' := by
  obtain ⟨chunks, nodes, rfl⟩ := hputs
  obtain ⟨hblob, hblobDigest, -⟩ := insertAll_digests hinj.blob h.blob chunks
  obtain ⟨hnode, hnodeDigest, -⟩ := insertAll_digests hinj.node h.node nodes
  exact
    { h.added_refl with
      ext := ⟨hnode, hblob, fun _ _ h => h⟩
      node := hnodeDigest
      blob := hblobDigest
      commit := fun _ _ h => .inl h }

/-- A tree whose blobs are there is whole once its nodes are stored. -/
lemma whole_of_nodes (hinj : Function.Injective env.nodeDigest) {r : Id} (hr : P.root m = some r)
    (hblobs : ∀ k b, m.get? k = some (.chunk b) → s.HasBlob b) :
    (s.putNodes env (P.nodes m)).Whole r := by
  intro n hn
  have hmem : ∃ node ∈ P.nodes m, env.nodeDigest node = n := by
    induction hn with
    | root hroot =>
      subst hroot
      exact P.root_mem m _ hr
    | step _ hy ih =>
      obtain ⟨node, hnode, rfl⟩ := ih
      rw [mem_children (get?_putNodes hinj hnode)] at hy
      exact P.child_mem m node hnode _ hy
  obtain ⟨node, hnode, rfl⟩ := hmem
  refine ⟨node, get?_putNodes hinj hnode, fun b hb => ?_⟩
  obtain ⟨k, hk⟩ := P.blob_mem m node hnode b hb
  exact hblobs k b hk

/-- The blobs below the root of a whole tree are there. -/
lemma hasBlob_of_reach {s : Objects Id} {root : Root Id} {node : Node Id}
    (hwhole : ∀ r, root = some r → s.Whole r)
    (hreach : Reach (childrenOf s.nodes.get?) (root = some ·) id)
    (hnode : s.nodes.get? id = some node) (hb : b ∈ node.blobRefs) : s.HasBlob b := by
  have hchildren : childrenOf s.nodes.get? = s.children := by
    funext x
    unfold childrenOf children follow
    cases s.nodes.get? x <;> rfl
  rw [hchildren] at hreach
  cases root with
  | none => exact (hreach.mem_of_closed (S := fun _ => False) (fun _ => nofun) nofun).elim
  | some r =>
    have hreach' : Reach s.children (· = r) id :=
      hreach.mem_of_closed (fun _ h => .root (Option.some.inj h).symm) fun _ _ h hy => .step h hy
    obtain ⟨node', hnode', hblobs⟩ := hwhole r rfl id hreach'
    rw [hnode] at hnode'
    cases hnode'
    exact hblobs b hb

lemma hasBlob_of_load {root : Root Id} (hwhole : ∀ r, root = some r → s.Whole r)
    (hload : P.load s.nodes.get? root = .ok m) (hk : m.get? k = some (.chunk b)) : s.HasBlob b := by
  obtain ⟨id, node, hreach, hnode, hb⟩ := P.load_chunk _ _ _ hload k b hk
  exact hasBlob_of_reach hwhole hreach hnode hb

/-- A whole tree reads the same when objects are added. -/
lemma Extends.readTree_eq {s s' : Objects Id} (h : Extends s s') {tree : Root Id}
    (hwhole : ∀ r, tree = some r → s.Whole r) (hload : P.load s.nodes.get? tree = .ok m)
    (chunkSize : Nat) : readTree P chunkSize s' tree = readTree P chunkSize s tree := by
  refine readTree_congr chunkSize hload (fun id hid => ?_) fun id node hid hnode b hb => ?_
  · obtain ⟨node, hnode⟩ := Option.isSome_iff_exists.mp (P.load_present _ _ _ hload id hid)
    rw [hnode, h.node id node hnode]
  · obtain ⟨bytes, hbytes, -⟩ := hasBlob_of_reach hwhole hid hnode hb
    rw [getBlob, getBlob, hbytes, h.blob _ _ hbytes]

/-! ## Publishing -/

/-- A commit that was published is in order. -/
structure InOrder (env : Env Id) (id : Id) (body : VersionCommitBody Id) : Prop where
  parents_length : body.parents.length ≤ 2
  parents_nodup : body.parents.Nodup
  paths_ne_nil : body.paths ≠ []
  paths_sorted : body.paths.Pairwise (· < ·)
  paths_canonical : ∀ p ∈ body.paths, Canonical p
  digest : id = env.commitDigest body

/-- A commit passes when its provenance was checked and it is in order. -/
lemma bundleCommit_ok :
    bundleCommit env id body = .ok () ↔ body.provenance.Checked ∧ InOrder env id body := by
  have hparents : ∀ ps : List Id, ¬(ps.length > 2 ∨ ps.length = 2 ∧ ps[0]? = ps[1]?) ↔
      ps.length ≤ 2 ∧ ps.Nodup
    | [] | [_] | [_, _] | _ :: _ :: _ :: _ => by simp
  refine validateVersionCommitObject_eq_ok.trans ?_
  simp only [hparents, Bool.or_eq_true, Bool.not_eq_true', not_or, Bool.not_eq_false,
    List.isEmpty_iff, List.all_eq_true, strictlySorted_iff, isCanonical_iff, not_not, ne_eq]
  constructor
  · rintro ⟨⟨hlength, hnodup⟩, ha, hc, hr, ⟨⟨hne, hsorted⟩, hcanonical⟩, -, hid⟩
    exact ⟨⟨ha, hc, hr⟩, hlength, hnodup, hne, hsorted, hcanonical, hid.symm⟩
  · rintro ⟨⟨ha, hc, hr⟩, hlength, hnodup, hne, hsorted, hcanonical, hid⟩
    exact ⟨⟨hlength, hnodup⟩, ha, hc, hr, ⟨⟨hne, hsorted⟩, hcanonical⟩, trivial, hid.symm⟩

/-- **Publishing a commit that is in order, with its parents and its tree, keeps soundness.** -/
theorem Sound.added_published (hinj : env.Injective) (h : Sound env s) {s₁ : Store Id}
    {r : VersionPublishRequest Id} (hputs : Puts env s s₁)
    (hpub : s₁.publishCommit cfg now r = .ok (.published, s'))
    (hcommit : bundleCommit env r.commit.id r.commit.toVersionCommitBody = .ok ())
    (hparents : ∀ p ∈ r.commit.parents, (s.commits.get? p).isSome)
    (htree : ∀ root, r.commit.tree = some root → s₁.Whole root) : Added env s s' := by
  have ha := h.added_puts hinj hputs
  obtain ⟨ht, hb, hp, hatt, hlogs, hc⟩ := hputs.refs
  obtain ⟨hhead, -, -, reflogs, hlog, rfl⟩ := publishCommit_published hpub
  have hnew : (s₁.published r reflogs).commits.get? r.commit.id =
      some r.commit.toVersionCommitBody := get?_insert_self ..
  -- A commit that was stored under this id has the same digest, so it is the same commit.
  have hkeep : ∀ id body, s.commits.get? id = some body →
      (s₁.published r reflogs).commits.get? id = some body := by
    intro id body hbody
    by_cases heq : id = r.commit.id
    · subst heq
      have hsame : body = r.commit.toVersionCommitBody := hinj.commit
        ((bundleCommit_digest (h.commit _ _ hbody)).trans
          (bundleCommit_digest hcommit).symm)
      rw [hsame]
      exact hnew
    · refine (get?_insert_of_ne _ _ heq).trans ?_
      rw [hc]
      exact hbody
  have hext : Extends s.toObjects (s₁.published r reflogs).toObjects :=
    ⟨ha.ext.node, ha.ext.blob, hkeep⟩
  have hext₁ : Extends s₁.toObjects (s₁.published r reflogs).toObjects :=
    ⟨fun _ _ h => h, fun _ _ h => h, fun id body hbody => hkeep id body (hc ▸ hbody)⟩
  refine { ext := hext, node := ha.node, blob := ha.blob, commit := fun id body hbody => ?_,
           head := fun b head hbranch => ?_, tag := fun t v hv => .inl (ht ▸ hv),
           reflog := fun k rec hrec => ?_, identity := ha.identity,
           attestation := fun k a hk => .inl (hatt ▸ hk), normal := fun b p hp' => .inl (hp ▸ hp') }
  · rcases of_get?_insert hbody with ⟨rfl, rfl⟩ | hbody
    · exact .inr ⟨hcommit, fun p hp => hext.isSome (hparents p hp),
        fun root hroot => hext₁.whole (htree root hroot)⟩
    · exact .inl (hc ▸ hbody)
  · rcases of_get?_insert hbranch with ⟨-, rfl⟩ | hbranch
    · exact .inr ⟨_, hnew, rfl⟩
    · exact .inl (hb ▸ hbranch)
  · rw [← hlogs]
    refine reflog_appended hlog (fun id hid => ?_) (fun id hid => ?_) k rec hrec
    · rw [← hhead, Objects.head, hb] at hid
      exact hext.isSome (h.head_isSome id hid)
    · cases hid
      rw [hnew]
      rfl

/-! ## The three publishers -/

lemma Sound.hasBlob_contents (h : Sound env s)
    (hload : P.contents s (s.branches.get? branch) = .ok m) (hk : m.get? k = some (.chunk b)) :
    s.HasBlob b := by
  cases hb : s.branches.get? branch with
  | none =>
    rw [hb] at hload
    cases hload
    cases hk
  | some head =>
    rw [hb] at hload
    obtain ⟨body, hbody, htree⟩ := h.head branch head hb
    exact hasBlob_of_load (fun r hr => h.tree _ body r hbody (htree ▸ hr)) hload hk

lemma Sound.hasBlob_commit (h : Sound env s) {c : VersionCommit Id}
    (hc : s.commits.get? c.id = some c.toVersionCommitBody)
    (hload : P.load s.nodes.get? c.tree = .ok m) (hk : m.get? k = some (.chunk b)) : s.HasBlob b :=
  hasBlob_of_load (fun r hr => h.tree _ _ r hc hr) hload hk

lemma nodup_toList {α : Type} (o : Option α) : o.toList.length ≤ 2 ∧ o.toList.Nodup := by
  cases o <;> simp

lemma Sound.added_commit (hinj : env.Injective) (h : Sound env s) {live : Live}
    {op : VersionCommitOperation} {commit : VersionCommit Id} {canonical : List String}
    {base : Contents Id} {captures : List Capture}
    (hc : Committed P cfg now live op s s' commit canonical base captures) : Added env s s' := by
  obtain ⟨intent, hpub⟩ := hc.published
  obtain ⟨hsorted, -, hcovers⟩ := canonicalizePathSet_spec hc.selected
  have hcanonical := roots_canonical hc.selected
  have hne : canonical ≠ [] := by
    obtain ⟨hpaths, hall⟩ := canonicalizePathSet_ok_iff.mp ⟨canonical, hc.selected⟩
    obtain ⟨p, hp⟩ := List.exists_mem_of_ne_nil _ hpaths
    obtain ⟨q, hq⟩ := hall p hp
    obtain ⟨r, hr, -⟩ := hcovers q ⟨p, hp, hq⟩
    exact List.ne_nil_of_mem hr
  have hcommit := hc.commit_eq
  subst hcommit
  refine h.added_published hinj ⟨_, _, rfl⟩ hpub
    (bundleCommit_ok.mpr ⟨op.provenance.2, (nodup_toList _).1, (nodup_toList _).2, hne, hsorted,
      hcanonical, rfl⟩)
    (fun p hp => h.head_isSome p (Option.mem_toList.mp hp)) fun root hroot => ?_
  -- The chunks of the new tree were captured and stored, or were in the old tree.
  refine whole_of_nodes hinj.node hroot fun k b hk => ?_
  have hputs := h.added_puts hinj (Puts.blobs (captures.filterMap Capture.blob) s)
  rw [get?_committedTree hcanonical hc.captured] at hk
  split at hk
  · rename_i hmatch
    have hcontent := (Live.capturePaths_spec env hcanonical hc.captured).mpr
      ⟨Live.keyPath_of_content hk ▸ List.any_eq_true.mp hmatch, hk⟩
    obtain ⟨c, hcap, -, hvalue⟩ := hcontent
    cases c with
    | entry path metadata => cases hvalue
    | chunk path index bytes =>
      cases hvalue
      have hstored := (insertAll_digests hinj.blob h.blob (captures.filterMap Capture.blob)).2.2
        bytes (List.mem_filterMap.mpr ⟨_, hcap, rfl⟩)
      exact ⟨bytes, hstored, rfl⟩
  · exact hputs.ext.hasBlob (h.hasBlob_contents hc.loaded hk)

/-- A merge that brings a change. -/
lemma Sound.added_merge (hinj : env.Injective) (h : Sound env s) {op : VersionMergeOperation}
    {source target : VersionRef Id} {base left right merged : Contents Id}
    {changes : List VersionPathChange}
    (hm : Merged P cfg now op s s' source target base left right merged changes)
    (hbrings : Brings op.strategy base left right) : Added env s s' := by
  obtain ⟨hvalues, hdiffer⟩ := merged_values hm.resolved
  obtain ⟨hsorted, hcanonical, hne⟩ := diffTrees_ok hm.diffed
  have htrees := hm.trees
  unfold mergeTrees at htrees
  simp only [bind_eq_ok, getCommit_eq_ok] at htrees
  obtain ⟨_, -, _, -, l, ⟨hlid, hl⟩, r, ⟨hrid, hr⟩, _, -, _, hleft, _, hright, ⟨⟩⟩ := htrees
  refine h.added_published hinj (.nodes _ s) hm.published
    (bundleCommit_ok.mpr ⟨op.provenance.2, Nat.le_refl _, ?_, ?_, hsorted, hcanonical, rfl⟩) ?_
    fun root hroot => ?_
  · exact List.nodup_cons.mpr ⟨by simpa using Ne.symm hm.differ, List.nodup_singleton _⟩
  · exact fun hnil => hne (hdiffer hbrings) (List.map_eq_nil_iff.mp hnil)
  · intro p hp
    rcases List.mem_pair.mp hp with rfl | rfl
    · rw [hl]
      rfl
    · rw [hr]
      rfl
  · refine whole_of_nodes hinj.node hroot fun k b hk => ?_
    rcases hvalues k with hv | hv
    · exact h.hasBlob_commit (hlid ▸ hl) hleft (hv ▸ hk)
    · exact h.hasBlob_commit (hrid ▸ hr) hright (hv ▸ hk)

lemma Sound.added_pick (hinj : env.Injective) (h : Sound env s) {op : VersionCherryPickOperation}
    {source : VersionCommit Id} {target : Contents Id} {plan : CherryPickPlan Id}
    (hp : PickedOn P cfg now op s s' source target plan) : Added env s s' := by
  obtain ⟨intent, hpub⟩ := hp.published
  obtain ⟨parent, -, hplan⟩ := hp.planned
  unfold pickPlan at hplan
  simp only [bind_eq_ok] at hplan
  obtain ⟨base, -, target', htarget, sourceTree, hsource, hplan⟩ := hplan
  rw [hp.target_read] at htarget
  cases htarget
  obtain ⟨hsorted, hcanonical, hne⟩ := cherryPickPlan_paths hplan hp.changes
  refine h.added_published hinj (.nodes _ s) hpub
    (bundleCommit_ok.mpr ⟨op.provenance.2, (nodup_toList _).1, (nodup_toList _).2, hne, hsorted,
      hcanonical, rfl⟩)
    (fun p hp => h.head_isSome p (Option.mem_toList.mp hp)) fun root hroot => ?_
  refine whole_of_nodes hinj.node hroot fun k b hk => ?_
  rw [(cherryPickPlan_ok hplan).get?_batch] at hk
  split at hk
  · exact h.hasBlob_commit (resolveCommit_stored hp.resolved) hsource hk
  · exact h.hasBlob_contents hp.target_read hk

/-! ## Runs -/

/-- **A call that keeps a repository verifiable**: no collection, pack or bundle, and a merge that
makes a commit brings a change. -/
def Verifiable (P : Prolly env) (s : Store Id) : RepositoryCall env → Prop
  | .merge op => ∀ source target base left right,
      s.branches.get? op.source = some source → s.branches.get? op.target = some target →
      ¬ s.Ancestor source.commitId target.commitId → ¬ s.Ancestor target.commitId source.commitId →
      mergeTrees P s op target.commitId source.commitId = .ok (base, left, right) →
      Brings op.strategy base left right
  | .garbageCollect .. | .sync .. | .importBundle .. => False
  | _ => True

lemma Sound.added (hinj : env.Injective) {cfg : SyncSettings Id} {call : RepositoryCall env}
    {r : Except Error Unit} (h : Sound env s) (hc : Verifiable P s call)
    (hp : perform P cfg now call s = (r, s')) : Added env s s' := by
  have he := perform_effect hp
  cases call with
  | commit live op =>
    obtain ⟨a, hp⟩ := answered_eq hp
    rcases commitPathsInner_cases hp with ⟨hputs, -⟩ | ⟨commit, canonical, base, captures, -, hcom⟩
    · exact h.added_puts hinj hputs
    · exact h.added_commit hinj hcom
  | merge op =>
    obtain ⟨a, hp⟩ := answered_eq hp
    rcases mergeBranchInner_cases hp with hputs | ⟨source, target, hf⟩ |
      ⟨source, target, base, left, right, merged, changes, hm⟩
    · exact h.added_puts hinj hputs
    · obtain ⟨hsource, -, -, reflogs, hlog, rfl⟩ := fastForwardBranch_ok hf.forwarded
      obtain ⟨body, hbody, htree⟩ := h.head op.source source hsource
      exact h.added_move hbody htree hlog
    · exact h.added_merge hinj hm (hc source target base left right hm.source_eq hm.target_eq
        hm.unmerged hm.ahead hm.trees)
  | cherryPick op =>
    obtain ⟨a, hp⟩ := answered_eq hp
    rcases cherryPickInner_cases hp with hputs | ⟨source, target, plan, hpicked⟩
    · exact h.added_puts hinj hputs
    · exact h.added_pick hinj hpicked
  | garbageCollect | sync | importBundle => exact hc.elim
  | _ => exact h.added_effect rfl he (h.added_puts hinj)

lemma Sound.perform (hinj : env.Injective) {cfg : SyncSettings Id} {call : RepositoryCall env}
    {r : Except Error Unit} (h : Sound env s) (hc : Verifiable P s call)
    (hp : perform P cfg now call s = (r, s')) : Sound env s' :=
  h.add (h.added hinj hc hp) (effect_outcome h.guarded (perform_effect hp)).guarded

lemma Reached.sound (hinj : env.Injective) {identity : VersionRepositoryIdentity}
    (h : Reached P (Verifiable P) (Store.empty identity) s) : Sound env s :=
  h.invariant ⟨nofun, nofun, nofun, nofun, nofun, nofun, nofun, nofun, nofun, nofun, nofun, nofun⟩
    fun hs hc hp => hs.perform hinj hc hp

/-- **Every run of calls without collections, packs and bundles keeps a repository verifiable**,
as long as every merge that makes a commit brings a change; and every commit it stores is in
order. -/
theorem run_verifies (hinj : env.Injective) (P : Prolly env) (identity : VersionRepositoryIdentity)
    {s : Store Id} (h : Reached P (Verifiable P) (Store.empty identity) s) :
    (∃ report, s.verify env = .ok report) ∧
      ∀ id body, s.commits.get? id = some body → InOrder env id body := by
  have hs := h.sound hinj
  exact ⟨Store.verify_ok_iff.mpr hs.verified,
    fun id body hbody => (bundleCommit_ok.mp (hs.commit id body hbody)).2⟩

/-- **What was committed stays.** Take two stores that such a run goes through. Every commit of
the first is in the second, and a tree that could be read then answers every read, of any path,
offset and length, with the same bytes or the same error now. -/
theorem committed_stays (hinj : env.Injective) (P : Prolly env)
    (identity : VersionRepositoryIdentity)
    (h : Reached P (Verifiable P) (Store.empty identity) s) (h' : Reached P (Verifiable P) s s')
    {id : Id} {body : VersionCommitBody Id} (hbody : s.commits.get? id = some body) :
    s'.commits.get? id = some body ∧
      ∀ m, P.load s.nodes.get? body.tree = .ok m → ∀ chunkSize,
        readTree P chunkSize s'.toObjects body.tree =
          readTree P chunkSize s.toObjects body.tree := by
  have hs := h.sound hinj
  have hext : Extends s.toObjects s'.toObjects := by
    refine (h'.invariant (I := fun t => Sound env t ∧ Extends s.toObjects t.toObjects)
      ⟨hs, .same rfl rfl rfl⟩ fun ⟨ht, he⟩ hc hp => ⟨ht.perform hinj hc hp, ?_⟩).2
    have hadd := (ht.added hinj hc hp).ext
    exact ⟨fun _ _ h => hadd.node _ _ (he.node _ _ h), fun _ _ h => hadd.blob _ _ (he.blob _ _ h),
      fun _ _ h => hadd.commit _ _ (he.commit _ _ h)⟩
  exact ⟨hext.commit id body hbody, fun m hload chunkSize =>
    hext.readTree_eq (fun r hr => hs.tree id body r hbody hr) hload chunkSize⟩

/-- A head that lists no paths does not verify. -/
lemma verify_refuses_empty {head : VersionRef Id} (hb : s.branches.get? branch = some head)
    (hbody : s.commits.get? head.commitId = some body) (hpaths : body.paths = []) :
    ¬ ∃ report, s.verify env = .ok report := by
  intro hv
  have hroot : s.Reachable head.commitId := .root (mem_roots.mpr (.inl ⟨branch, head, hb, rfl⟩))
  rcases verifyCommit_isOk.mp ((verify_ok_iff.mp hv).commit _ hroot) with
    ⟨body', hbody', hok⟩ | ⟨hnone, -⟩
  · rw [hbody] at hbody'
    cases hbody'
    exact (bundleCommit_ok.mp hok).2.paths_ne_nil hpaths
  · rw [hbody] at hnone
    cases hnone

end

namespace Digest

def commitOn (branch : String) : VersionCommitOperation :=
  ⟨branch, ["f"], "", ⟨who, who_checked⟩, none⟩

/-- Live trees with three versions of a file. -/
def liveFive : Live := .ofNodes (liveFile [5]) 1 (by decide +kernel)

def liveSix : Live := .ofNodes (liveFile [6]) 1 (by decide +kernel)

def liveSeven : Live := .ofNodes (liveFile [7]) 1 (by decide +kernel)

def mergeInto (strategy : VersionMergeConflictStrategy) : RepositoryCall env :=
  .merge ⟨"x", "main", none, none, strategy, ⟨who, who_checked⟩⟩

/-- Both branches change the file. -/
def diverging : List (RepositoryCall env) :=
  [.commit liveFive (commitOn "main"), .createBranch "x" "main",
    .commit liveSix (commitOn "main"), .commit liveSeven (commitOn "x")]

/-- What a call answers and leaves, at time zero. -/
def performed (call : RepositoryCall env) (s : Store Digest) : Except Error Unit × Store Digest :=
  perform (.flat env) (.unlimited []) 0 call s

/-- The stores that calls go through, and whether all succeed. -/
def runCalls (calls : List (RepositoryCall env)) : Bool × Store Digest :=
  calls.foldl (fun x call => (x.1 && (performed call x.2).1 = .ok (), (performed call x.2).2))
    (true, Store.empty emptyStore.identity)

def diverged : Store Digest := (runCalls diverging).2

lemma reached_runCalls {C : Store Digest → RepositoryCall env → Prop} :
    ∀ (calls : List (RepositoryCall env)) (x : Bool × Store Digest),
      (∀ call ∈ calls, ∀ s, C s call) →
      Reached (.flat env) C (empty emptyStore.identity) x.2 →
      Reached (.flat env) C (empty emptyStore.identity)
        (calls.foldl (fun x call =>
          (x.1 && (performed call x.2).1 = .ok (), (performed call x.2).2)) x).2
  | [], _, _, h => h
  | call :: calls, _, hC, h => reached_runCalls calls _
      (fun c hc => hC c (List.mem_cons_of_mem _ hc))
      (.call h (hC call (List.mem_cons_self ..) _) (Prod.ext rfl rfl))

lemma diverged_reached : Reached (.flat env) (Verifiable (.flat env))
    (empty emptyStore.identity) diverged := by
  refine reached_runCalls _ _ (fun call hcall s => ?_) .start
  simp only [diverging, List.mem_cons, List.not_mem_nil, or_false] at hcall
  rcases hcall with rfl | rfl | rfl | rfl <;> exact trivial

/-- The branches disagree about the first chunk of the file. -/
lemma theirs_verifiable : Verifiable (.flat env) diverged (mergeInto .theirs) := by
  intro source target base left right hsource htarget _ _ htrees
  have hdiffer : ((diverged.branches.get? "x").all fun source =>
      (diverged.branches.get? "main").all fun target =>
        (mergeTrees (.flat env) diverged ⟨"x", "main", none, none, .theirs, ⟨who, who_checked⟩⟩
          target.commitId source.commitId).toOption.all fun t =>
            t.2.1.get? (fileChunkKey "/f" 0) ≠ t.2.2.get? (fileChunkKey "/f" 0) &&
            t.1.get? (fileChunkKey "/f" 0) ≠ t.2.1.get? (fileChunkKey "/f" 0) &&
            t.1.get? (fileChunkKey "/f" 0) ≠ t.2.2.get? (fileChunkKey "/f" 0)) = true := by
    decide +kernel
  rw [hsource, htarget] at hdiffer
  simp only [Option.all_some] at hdiffer
  rw [htrees] at hdiffer
  simp only [Except.toOption, Option.all_some, Bool.and_eq_true, decide_eq_true_eq] at hdiffer
  obtain ⟨⟨hne, hleft⟩, hright⟩ := hdiffer
  exact ⟨_, hne, .inr ⟨rfl, _, rfl, hleft, hright, hne⟩⟩

end Digest

open Digest in
/-- Both branches changed a file. The merge keeps the target's version, and publishes a commit
that changes nothing. -/
theorem ours_merge_unverifiable :
    (runCalls (diverging ++ [mergeInto .ours])).1 = true ∧
      ¬ ∃ report, (runCalls (diverging ++ [mergeInto .ours])).2.verify env = .ok report := by
  have hempty :
      ((runCalls (diverging ++ [mergeInto .ours])).2.branches.get? "main").any (fun head =>
      (runCalls (diverging ++ [mergeInto .ours])).2.commits.entries.any fun e =>
        e.1 = head.commitId && e.2.paths.isEmpty) = true := by decide +kernel
  obtain ⟨head, hhead, hany⟩ := Live.exists_of_any hempty
  obtain ⟨e, he, hpaths⟩ := List.any_eq_true.mp hany
  rw [Bool.and_eq_true, decide_eq_true_eq, List.isEmpty_iff] at hpaths
  have hbody := mem_entries.mp he
  rw [hpaths.1] at hbody
  exact ⟨by decide +kernel, verify_refuses_empty hhead hbody hpaths.2⟩

open Digest in
theorem theirs_merge_verifies :
    (∃ report, (performed (mergeInto .theirs) diverged).2.verify env = .ok report) ∧
      ∀ id body, (performed (mergeInto .theirs) diverged).2.commits.get? id = some body →
        InOrder env id body :=
  run_verifies env_injective (.flat env) emptyStore.identity
    (.call diverged_reached theirs_verifiable (Prod.ext rfl rfl))

open Digest in
/-- A commit from before a merge. -/
theorem merged_commit_stays : ∃ id body, diverged.commits.get? id = some body ∧
    (performed (mergeInto .theirs) diverged).2.commits.get? id = some body ∧
    ∀ m, (Prolly.flat env).load diverged.nodes.get? body.tree = .ok m → ∀ chunkSize,
      readTree (.flat env) chunkSize (performed (mergeInto .theirs) diverged).2.toObjects
        body.tree = readTree (.flat env) chunkSize diverged.toObjects body.tree := by
  obtain ⟨⟨id, body⟩, he⟩ := List.exists_mem_of_ne_nil diverged.commits.entries (by decide +kernel)
  have hbody := mem_entries.mp he
  exact ⟨id, body, hbody, committed_stays env_injective (.flat env) emptyStore.identity
    diverged_reached (.call .start theirs_verifiable (Prod.ext rfl rfl)) hbody⟩

end SlateFs.Version
