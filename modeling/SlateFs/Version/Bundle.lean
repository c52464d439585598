import SlateFs.Version.Verify

/-!
# Exporting a repository

`export_bundle` verifies the store, collects every portable record and checks the
collection as a receiver would (`validate_repository_bundle_payload`): first each
record on its own, in key order, then the references between them. The keys of a
family are distinct and in order because the family is an ordered map.

The encoding, its digest and the sizes in the report are left out.
-/

namespace SlateFs.Version

open OrdMap Worklist Objects

variable {Id : Type} [ObjectId Id]

/-- `Error.invalid` of a bundle. -/
def invalidBundle (reason : String) : Error := .invalid "version repository bundle" reason

namespace Objects

/-! ## Records on their own -/

variable (env : Env Id) (o : Objects Id)

def bundleBlob (id : Id) (bytes : Bytes) : Except Error Unit :=
  if env.blobDigest bytes ≠ id then
    .error (invalidBundle s!"blob {hex id} does not match its content hash")
  else .ok ()

def bundleCommit (id : Id) (body : VersionCommitBody Id) : Except Error Unit :=
  validateVersionCommitObject env ⟨body, id⟩ id "version repository bundle"

def bundleNode (id : Id) (node : Node Id) : Except Error Unit :=
  if env.nodeDigest node ≠ id then
    .error (invalidBundle s!"Prolly node {hex id} does not match its content hash")
  else if !strictlySorted node.keys then
    .error (invalidBundle s!"Prolly node {hex id} is not structurally valid")
  else .ok ()

/-! ## References between records -/

/-- The parents of a commit are there or pruned. -/
def linkParent (id parent : Id) : Except Error Unit :=
  if (o.commits.get? parent).isNone && !o.isPrunedCommit parent then
    .error (invalidBundle s!"commit {hex id} references missing parent {hex parent}")
  else .ok ()

def linkCommit (id : Id) (body : VersionCommitBody Id) : Except Error Unit :=
  if o.isPrunedCommit id then
    .error (invalidBundle s!"commit {hex id} also has a contradictory pruned marker")
  else
    match checkAll (o.linkParent id) body.parents with
    | .error e => .error e
    | .ok () =>
      match body.tree with
      | none => .ok ()
      | some root =>
        if (o.nodes.get? root).isNone then
          .error (invalidBundle s!"commit {hex id} references missing Prolly root {hex root}")
        else .ok ()

def linkBlob (id : Id) (reference : BlobRef Id) : Except Error Unit :=
  match o.blobs.get? reference.cid with
  | none => .error (invalidBundle
      s!"Prolly node {hex id} references missing blob {hex reference.cid}")
  | some bytes =>
    if bytes.length = reference.len then .ok ()
    else .error (invalidBundle
      s!"Prolly node {hex id} references blob {hex reference.cid} with the wrong length")

def linkChild (id child : Id) : Except Error Unit :=
  if (o.nodes.get? child).isNone then
    .error (invalidBundle s!"Prolly node {hex id} references missing child {hex child}")
  else .ok ()

def linkNode (id : Id) : Node Id → Except Error Unit
  | .leaf es => checkAll (o.linkBlob id) (es.filterMap (fun e => e.2.blobRef))
  | .internal es => checkAll (o.linkChild id) (es.map (·.2))

def linkAttestation (identity : VersionRepositoryIdentity) (o : Objects Id) (commit : Id)
    (keyId : String) (a : VersionCommitAttestation) : Except Error Unit :=
  match o.commits.get? commit with
  | none => .error (invalidBundle
      s!"attestation {keyId} references missing commit {hex commit}")
  | some _ => verifyVersionCommitAttestation env identity.id commit keyId a

def linkBranch (name : String) (head : VersionRef Id) : Except Error Unit :=
  match o.commits.get? head.commitId with
  | none => .error (invalidBundle
      s!"branch {name} references missing commit {hex head.commitId}")
  | some commit =>
    if head.tree ≠ commit.tree then
      .error (invalidBundle s!"branch {name} tree does not match its commit")
    else .ok ()

def linkTag (name : String) (tag : VersionTag Id) : Except Error Unit :=
  match o.commits.get? tag.commitId with
  | none => .error (invalidBundle s!"tag {name} references missing commit {hex tag.commitId}")
  | some _ => .ok ()

def linkReflog (branch : String) (commit : Id) : Except Error Unit :=
  match o.commits.get? commit with
  | none => .error (invalidBundle
      s!"reflog for branch {branch} references missing commit {hex commit}")
  | some _ => .ok ()

end Objects

structure VersionRepositoryBundleReport where
  commits : Nat
  prunedCommits : Nat
  attestations : Nat
  nodes : Nat
  blobs : Nat
  branches : Nat
  tags : Nat
  reflogs : Nat
  deriving DecidableEq, Repr

open Objects in
/-- The second pass over a payload: what its records refer to. -/
def linkObjects (env : Env Id) (identity : VersionRepositoryIdentity) (o : Objects Id) :
    Except Error VersionRepositoryBundleReport := do
  checkAll (fun e => o.linkCommit e.1 e.2) o.commits.entries
  checkAll (fun e => o.linkNode e.1 e.2) o.nodes.entries
  checkAll (fun e => linkAttestation env identity o (ofLex e.1).1 (ofLex e.1).2 e.2)
    o.attestations.entries
  checkAll (fun e => o.linkBranch e.1 e.2) o.branches.entries
  checkAll (fun e => o.linkTag e.1 e.2) o.tags.entries
  checkAll (fun e => checkAll (o.linkReflog (ofLex e.1).1) e.2.commitIds) o.reflogs.entries
  return {
    commits := o.commits.entries.length
    prunedCommits := o.prunedCommits.entries.length
    attestations := o.attestations.entries.length
    nodes := o.nodes.entries.length
    blobs := o.blobs.entries.length
    branches := o.branches.entries.length
    tags := o.tags.entries.length
    reflogs := o.reflogs.entries.length }

open Objects in
/-- `validate_repository_bundle_payload` -/
def validateRepositoryBundlePayload (env : Env Id) (identity : VersionRepositoryIdentity)
    (o : Objects Id) : Except Error VersionRepositoryBundleReport := do
  validateVersionRepositoryIdentity identity
  checkAll (fun e => validateVersionAttestationKeyId (ofLex e.1).2) o.attestations.entries
  checkAll (fun e => bundleBlob env e.1 e.2) o.blobs.entries
  checkAll (fun e => bundleCommit env e.1 e.2) o.commits.entries
  checkAll (fun e => bundleNode env e.1 e.2) o.nodes.entries
  checkAll (fun e => validateVersionBranchName e.1) o.branches.entries
  checkAll (fun e => validateVersionBranchName (ofLex e.1).1) o.reflogs.entries
  checkAll (fun e => validateVersionTagName e.1) o.tags.entries
  linkObjects env identity o

/-- `export_bundle`: what is exported, with its report. -/
def Store.exportBundle (env : Env Id) (s : Store Id) :
    Except Error (Objects Id × VersionRepositoryBundleReport) := do
  let _ ← s.verify env
  let report ← validateRepositoryBundlePayload env s.identity s.toObjects
  return (s.toObjects, report)

/-! ## What it means to be portable -/

section

variable {env : Env Id} {identity : VersionRepositoryIdentity} {o : Objects Id} {s : Store Id}

namespace Objects

variable {id : Id}

lemma linkParent_ok {p : Id} :
    o.linkParent id p = .ok () ↔ (o.commits.get? p).isSome ∨ o.isPrunedCommit p = true := by
  unfold linkParent
  cases o.commits.get? p <;> cases o.isPrunedCommit p <;> simp

lemma linkCommit_ok {body : VersionCommitBody Id} :
    o.linkCommit id body = .ok () ↔ o.isPrunedCommit id = false ∧
      (∀ p ∈ body.parents, (o.commits.get? p).isSome ∨ o.isPrunedCommit p = true) ∧
      ∀ r, body.tree = some r → (o.nodes.get? r).isSome := by
  unfold linkCommit
  cases hp : o.isPrunedCommit id with
  | true => simp
  | false =>
    simp only [Bool.false_eq_true, if_false, true_and]
    cases hl : checkAll (o.linkParent id) body.parents with
    | error e =>
      have : ¬ ∀ p ∈ body.parents, o.linkParent id p = .ok () := by
        rw [← checkAll_eq_ok, hl]
        nofun
      simp only [linkParent_ok] at this
      simp only [reduceCtorEq, false_iff]
      exact fun h => this h.1
    | ok u =>
      have hall := checkAll_eq_ok.mp hl
      simp only [linkParent_ok] at hall
      cases body.tree with
      | none => simpa using hall
      | some r =>
        cases hr : o.nodes.get? r with
        | none => simp [hr]
        | some node => simpa [hr] using hall

lemma linkBlob_ok {r : BlobRef Id} :
    o.linkBlob id r = .ok () ↔ ∃ bytes, o.blobs.get? r.cid = some bytes ∧ bytes.length = r.len := by
  unfold linkBlob
  cases o.blobs.get? r.cid with
  | none => simp
  | some bytes => simp

lemma linkChild_ok {child : Id} :
    o.linkChild id child = .ok () ↔ (o.nodes.get? child).isSome := by
  unfold linkChild
  cases o.nodes.get? child <;> simp

lemma linkNode_ok {node : Node Id} :
    o.linkNode id node = .ok () ↔
      (∀ r ∈ node.blobRefs, ∃ bytes, o.blobs.get? r.cid = some bytes ∧ bytes.length = r.len) ∧
      ∀ c ∈ node.children, (o.nodes.get? c).isSome := by
  cases node with
  | leaf es =>
    simp only [linkNode, checkAll_eq_ok, linkBlob_ok, Node.children, Node.blobRefs]
    exact ⟨fun h => ⟨h, by simp⟩, fun h => h.1⟩
  | internal es =>
    simp only [linkNode, checkAll_eq_ok, linkChild_ok, Node.children, Node.blobRefs]
    exact ⟨fun h => ⟨by simp, h⟩, fun h => h.2⟩

end Objects

open Objects in
/-- **A linked collection**: blobs and commits are what they are named by, and every record refers
only to records that are there, or to pruned commits. -/
structure Linked (env : Env Id) (identity : VersionRepositoryIdentity) (o : Objects Id) :
    Prop where
  blob : ∀ id bytes, o.blobs.get? id = some bytes → bundleBlob env id bytes = .ok ()
  commit : ∀ id body, o.commits.get? id = some body → bundleCommit env id body = .ok ()
  commitLinks : ∀ id body, o.commits.get? id = some body → o.linkCommit id body = .ok ()
  nodeLinks : ∀ id node, o.nodes.get? id = some node → o.linkNode id node = .ok ()
  attestation : ∀ k a, o.attestations.get? k = some a →
    linkAttestation env identity o (ofLex k).1 (ofLex k).2 a = .ok ()
  branch : ∀ b h, o.branches.get? b = some h → o.linkBranch b h = .ok ()
  tag : ∀ t v, o.tags.get? t = some v → o.linkTag t v = .ok ()
  reflog : ∀ k r, o.reflogs.get? k = some r →
    ∀ id ∈ r.commitIds, o.linkReflog (ofLex k).1 id = .ok ()

open Objects in
/-- **A portable collection**: it is linked, and every other record is in order too. -/
structure Portable (env : Env Id) (identity : VersionRepositoryIdentity) (o : Objects Id) : Prop
    extends Linked env identity o where
  identity_ok : validateVersionRepositoryIdentity identity = .ok ()
  keyId : ∀ k a, o.attestations.get? k = some a →
    validateVersionAttestationKeyId (ofLex k).2 = .ok ()
  node : ∀ id node, o.nodes.get? id = some node → bundleNode env id node = .ok ()
  branchName : ∀ b h, o.branches.get? b = some h → validateVersionBranchName b = .ok ()
  reflogName : ∀ k r, o.reflogs.get? k = some r → validateVersionBranchName (ofLex k).1 = .ok ()
  tagName : ∀ t v, o.tags.get? t = some v → validateVersionTagName t = .ok ()

lemma forall_entries {κ α : Type} [LinearOrder κ] {m : OrdMap κ α} {P : κ × α → Prop} :
    (∀ e ∈ m.entries, P e) ↔ ∀ k v, m.get? k = some v → P (k, v) :=
  ⟨fun h k v hk => h (k, v) (mem_entries.mpr hk), fun h e he => h e.1 e.2 (mem_entries.mp he)⟩

/-- The second pass succeeds on a collection whose blobs and commits are in order just when it is
linked. -/
lemma linkObjects_ok_iff
    (hblob : ∀ id bytes, o.blobs.get? id = some bytes → bundleBlob env id bytes = .ok ())
    (hcommit : ∀ id body, o.commits.get? id = some body → bundleCommit env id body = .ok ()) :
    (∃ r, linkObjects env identity o = .ok r) ↔ Linked env identity o := by
  unfold linkObjects
  simp only [↓then_eq_ok, checkAll_eq_ok, forall_entries]
  constructor
  · rintro ⟨r, h1, h2, h3, h4, h5, h6, -⟩
    exact ⟨hblob, hcommit, h1, h2, h3, h4, h5, h6⟩
  · intro h
    exact ⟨_, h.commitLinks, h.nodeLinks, h.attestation, h.branch, h.tag, h.reflog, rfl⟩

/-- **The payload check succeeds just on the portable collections.** -/
theorem validate_ok_iff :
    (∃ r, validateRepositoryBundlePayload env identity o = .ok r) ↔ Portable env identity o := by
  unfold validateRepositoryBundlePayload
  simp only [↓then_eq_ok, checkAll_eq_ok, forall_entries]
  constructor
  · rintro ⟨r, h1, h2, h3, h4, h5, h6, h7, h8, h9⟩
    exact ⟨(linkObjects_ok_iff h3 h4).mp ⟨r, h9⟩, h1, h2, h5, h6, h7, h8⟩
  · intro h
    obtain ⟨r, hr⟩ := (linkObjects_ok_iff h.blob h.commit).mpr h.toLinked
    exact ⟨r, h.identity_ok, h.keyId, h.blob, h.commit, h.node, h.branchName, h.reflogName,
      h.tagName, hr⟩

variable {commit : VersionCommit Id} {id : Id} {what : String}

/-- **What is checked of a commit.** -/
theorem validateVersionCommitObject_eq_ok :
    validateVersionCommitObject env commit id what = .ok () ↔
      ¬ (commit.parents.length > 2
        ∨ (commit.parents.length = 2 ∧ commit.parents[0]? = commit.parents[1]?)) ∧
      validateVersionIdentity "version commit author" commit.provenance.author = .ok () ∧
      validateVersionIdentity "version commit committer" commit.provenance.committer = .ok () ∧
      validateVersionRequestId commit.provenance.requestId = .ok () ∧
      ¬ (commit.paths.isEmpty || !strictlySorted commit.paths
        || !commit.paths.all isCanonical) = true ∧
      ¬ (commit.id ≠ id ∨ env.commitDigest commit.toVersionCommitBody ≠ id) := by
  unfold validateVersionCommitObject
  -- one check after the other, and none is left
  repeat'
    split
    · simp_all
  simp_all

/-- What a check of a commit is made for does not matter. -/
lemma validateVersionCommitObject_ok {what' : String}
    (h : validateVersionCommitObject env commit id what = .ok ()) :
    validateVersionCommitObject env commit id what' = .ok () :=
  validateVersionCommitObject_eq_ok.mpr (validateVersionCommitObject_eq_ok.mp h)

namespace Objects

variable {id : Id} {name : String}

lemma bundleCommit_digest {body : VersionCommitBody Id} (h : bundleCommit env id body = .ok ()) :
    env.commitDigest body = id := by
  obtain ⟨-, -, -, -, -, hid⟩ := validateVersionCommitObject_eq_ok.mp h
  exact not_not.mp fun hne => hid (.inr hne)

lemma bundleNode_digest {node : Node Id} (h : bundleNode env id node = .ok ()) :
    env.nodeDigest node = id := by
  unfold bundleNode at h
  by_contra hne
  rw [if_pos hne] at h
  cases h

lemma bundleBlob_digest {bytes : Bytes} (h : bundleBlob env id bytes = .ok ()) :
    env.blobDigest bytes = id := by
  unfold bundleBlob at h
  by_contra hne
  rw [if_pos hne] at h
  cases h

lemma linkAttestation_ok {commit : Id} {keyId : String} {a : VersionCommitAttestation} :
    linkAttestation env identity o commit keyId a = .ok () ↔ (o.commits.get? commit).isSome ∧
      verifyVersionCommitAttestation env identity.id commit keyId a = .ok () := by
  unfold linkAttestation
  cases o.commits.get? commit <;> simp

lemma linkBranch_ok {head : VersionRef Id} :
    o.linkBranch name head = .ok () ↔
      ∃ body, o.commits.get? head.commitId = some body ∧ head.tree = body.tree := by
  unfold linkBranch
  cases o.commits.get? head.commitId <;> simp

lemma linkTag_ok {tag : VersionTag Id} :
    o.linkTag name tag = .ok () ↔ (o.commits.get? tag.commitId).isSome := by
  unfold linkTag
  cases o.commits.get? tag.commitId <;> simp

lemma linkReflog_ok {branch : String} :
    o.linkReflog branch id = .ok () ↔ (o.commits.get? id).isSome := by
  unfold linkReflog
  cases o.commits.get? id <;> simp

end Objects

namespace Store

variable {name : String} {id : Id}

lemma verifyBranch_ok {head : VersionRef Id} :
    s.verifyBranch name head = .ok () ↔
      ∃ body, s.commits.get? head.commitId = some body ∧ head.tree = body.tree := by
  unfold verifyBranch
  cases s.commits.get? head.commitId <;> simp

lemma verifyTag_ok {tag : VersionTag Id} :
    s.verifyTag name tag = .ok () ↔ (s.commits.get? tag.commitId).isSome := by
  unfold verifyTag
  cases s.commits.get? tag.commitId <;> simp

lemma verifyReflog_ok : s.verifyReflog id = .ok () ↔ (s.commits.get? id).isSome := by
  unfold verifyReflog
  cases s.commits.get? id <;> simp

lemma verifyAttestation_ok {commit : Id} {keyId : String} {a : VersionCommitAttestation} :
    s.verifyAttestation env commit keyId a = .ok () ↔ (s.commits.get? commit).isSome ∧
      verifyVersionCommitAttestation env s.identity.id commit keyId a = .ok () := by
  unfold verifyAttestation
  cases s.commits.get? commit <;> simp

lemma verifyCommit_isOk :
    (∃ ys, s.verifyCommit env id = .ok ys) ↔
      (∃ body, s.commits.get? id = some body ∧ bundleCommit env id body = .ok ()) ∨
        (s.commits.get? id = none ∧ s.isPrunedCommit id = true) := by
  unfold verifyCommit tryGetCommit bundleCommit
  cases hc : s.commits.get? id with
  | none => cases s.isPrunedCommit id <;> simp
  | some body =>
    simp only [Option.map_some, Option.some.injEq, exists_eq_left', reduceCtorEq, false_and,
      or_false]
    constructor
    · rintro ⟨ys, h⟩
      split at h
      · cases h
      · rename_i hv
        exact validateVersionCommitObject_ok hv
    · intro h
      rw [validateVersionCommitObject_ok h]
      exact ⟨_, rfl⟩

lemma verifyBlob_ok {r : BlobRef Id} :
    s.verifyBlob env r = .ok () ↔
      ∃ bytes, s.blobs.get? r.cid = some bytes ∧ env.blobDigest bytes = r.cid ∧
        bytes.length = r.len := by
  unfold verifyBlob getBlob
  cases s.blobs.get? r.cid with
  | none => simp
  | some bytes =>
    by_cases h : env.blobDigest bytes = r.cid ∧ bytes.length = r.len <;> simp [h]

/-- Walks start at the commits that references name. -/
lemma mem_roots : id ∈ s.roots ↔
    (∃ b head, s.branches.get? b = some head ∧ head.commitId = id) ∨
      (∃ t v, s.tags.get? t = some v ∧ v.commitId = id) ∨ id ∈ s.reflogCommitIds := by
  unfold roots
  simp only [List.mem_append, List.mem_map, Prod.exists, mem_entries]

/-- A commit that is reached in a linked store is there, or pruned. -/
lemma present_of_linked (h : Linked env s.identity s.toObjects) (hid : s.Reachable id) :
    (s.commits.get? id).isSome ∨ s.isPrunedCommit id = true := by
  refine hid.mem_of_closed
    (S := fun id => (s.commits.get? id).isSome ∨ s.isPrunedCommit id = true)
    (fun y hy => .inl ?_) (fun y z _ hz => ?_)
  · rcases mem_roots.mp hy with ⟨b, v, hb, rfl⟩ | ⟨t, v, ht, rfl⟩ | hy
    · obtain ⟨body, hb, -⟩ := linkBranch_ok.mp (h.branch b v hb)
      rw [hb]
      rfl
    · exact linkTag_ok.mp (h.tag t v ht)
    · obtain ⟨e, he, hid⟩ := List.mem_flatMap.mp hy
      exact linkReflog_ok.mp (h.reflog e.1 e.2 (mem_entries.mp he) y hid)
  · obtain ⟨body, hb, hz⟩ := mem_follow.mp hz
    exact (linkCommit_ok.mp (h.commitLinks y body hb)).2.1 z hz

/-- Trees in a linked store have all their nodes. -/
lemma node_of_linked (h : Linked env s.identity s.toObjects) {C : Id → Prop}
    (hn : s.NodeOf C id) : (s.nodes.get? id).isSome := by
  refine hn.mem_of_closed (S := fun n => (s.nodes.get? n).isSome) ?_ fun x y _ hy => ?_
  · rintro r ⟨c, body, -, hb, ht⟩
    exact (linkCommit_ok.mp (h.commitLinks c body hb)).2.2 r ht
  · obtain ⟨node, hx, hy⟩ := mem_follow.mp hy
    exact (linkNode_ok.mp (h.nodeLinks x node hx)).2 y hy

/-- **A linked store whose protected branches have their quorum is verified.** -/
theorem verified_of_linked (h : Linked env s.identity s.toObjects)
    (hprotection : ∀ b p, s.protections.get? b = some p → s.verifyProtection env b p = .ok ()) :
    Verified env s where
  protection := hprotection
  branch b v hb := verifyBranch_ok.mpr (linkBranch_ok.mp (h.branch b v hb))
  tag t v ht := verifyTag_ok.mpr (linkTag_ok.mp (h.tag t v ht))
  reflog id hid := by
    obtain ⟨e, he, hid⟩ := List.mem_flatMap.mp hid
    exact verifyReflog_ok.mpr (linkReflog_ok.mp
      (h.reflog e.1 e.2 (mem_entries.mp he) id hid))
  commit id hid := by
    refine verifyCommit_isOk.mpr ?_
    cases hc : s.commits.get? id with
    | some body => exact .inl ⟨body, rfl, h.commit id body hc⟩
    | none => exact .inr ⟨rfl, (present_of_linked h hid).resolve_left (by rw [hc]; nofun)⟩
  attestation k a ha :=
    verifyAttestation_ok.mpr (linkAttestation_ok.mp (h.attestation k a ha))
  node n hn := node_of_linked h hn
  blob n node _ hnode r hr := by
    obtain ⟨bytes, hb, hlen⟩ := (linkNode_ok.mp (h.nodeLinks n node hnode)).1 r hr
    exact verifyBlob_ok.mpr ⟨bytes, hb, bundleBlob_digest (h.blob r.cid bytes hb), hlen⟩

end Store

/-- An export succeeds on a verified store whose records are portable. -/
lemma Store.export_ok_iff :
    (∃ r, s.exportBundle env = .ok r) ↔
      Store.Verified env s ∧ Portable env s.identity s.toObjects := by
  unfold Store.exportBundle
  simp only [bind_eq_ok]
  constructor
  · rintro ⟨r, v, hv, p, hp, -⟩
    exact ⟨Store.verify_ok_iff.mp ⟨v, hv⟩, validate_ok_iff.mp ⟨p, hp⟩⟩
  · rintro ⟨hv, hp⟩
    obtain ⟨v, hv⟩ := Store.verify_ok_iff.mpr hv
    obtain ⟨p, hp⟩ := validate_ok_iff.mpr hp
    exact ⟨_, v, hv, p, hp, rfl⟩

end

end SlateFs.Version
