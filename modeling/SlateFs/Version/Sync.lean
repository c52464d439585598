import SlateFs.Version.History
import SlateFs.Version.Import
import SlateFs.Version.Mark

/-!
# Sync packs

A repository brings a branch of another one up to date with a pack: the records that
the head of the branch reaches, less those that the receiver's head reaches. The sender
judges both by its own copies (`export_sync_bundle`).

The receiver joins the pack to its records and checks the whole as if it were a bundle,
then that the branch only advances, that it may, and that there is room
(`apply_sync_payload`). All is written in one batch, under the lock of the references;
so applying a pack is a function to the new store, or an error that changes nothing.

The encoding of a pack and its size are left out. A pack has no references, policies or
reflogs, so its families are those of the objects only.
-/

namespace SlateFs

/-- What an error says; a library's own words are not kept. -/
def Error.text : Error → String
  | .slateDb => "storage engine"
  | .objectStore => "object store"
  | .crypto msg => s!"crypto failure (fail-closed): {msg}"
  | .notFound kind name => s!"{kind} {name.quote} not found"
  | .alreadyExists kind name => s!"{kind} {name.quote} already exists"
  | .invalid what reason => s!"invalid {what}: {reason}"
  | .codec => "codec"
  | .config msg => s!"config: {msg}"
  | .io => "io"
  | .versioning msg => s!"versioning: {msg}"

namespace Version

open OrdMap Worklist Objects

variable {Id : Type} [ObjectId Id]

structure VersionRepositorySyncPayload (Id : Type) [ObjectId Id] where
  identity : VersionRepositoryIdentity
  branch : String
  expected : Option Id
  target : Id
  attestations : OrdMap (Id ×ₗ String) VersionCommitAttestation
  blobs : OrdMap Id Bytes
  commits : OrdMap Id (VersionCommitBody Id)
  nodes : OrdMap Id (Node Id)
  prunedCommits : OrdMap Id Unit

/-- The records of a pack. -/
def VersionRepositorySyncPayload.objects (p : VersionRepositorySyncPayload Id) : Objects Id :=
  ⟨p.attestations, p.blobs, p.commits, p.nodes, p.prunedCommits, ∅, ∅, ∅⟩

structure VersionRepositorySyncReport (Id : Type) where
  identity : VersionRepositoryIdentity
  branch : String
  expected : Option Id
  previous : Option Id
  target : Id
  commits : Nat
  prunedCommits : Nat
  attestations : Nat
  nodes : Nat
  blobs : Nat
  fastForward : Bool
  forced : Bool
  updated : Bool
  deriving DecidableEq

/-- `repository_sync_report` -/
def repositorySyncReport (p : VersionRepositorySyncPayload Id) (previous : Option Id)
    (fastForward forced updated : Bool) : VersionRepositorySyncReport Id where
  identity := p.identity
  branch := p.branch
  expected := p.expected
  previous := previous
  target := p.target
  commits := p.commits.entries.length
  prunedCommits := p.prunedCommits.entries.length
  attestations := p.attestations.entries.length
  nodes := p.nodes.entries.length
  blobs := p.blobs.entries.length
  fastForward := fastForward
  forced := forced
  updated := updated

/-! ## Making a pack -/

namespace Objects

variable (s : Objects Id)

def expandHistory (id : Id) : Except Error (List Id) :=
  match s.commits.get? id with
  | some body => .ok body.parents
  | none =>
    if s.isPrunedCommit id then .ok []
    else .error (.notFound "version commit" (hex id))

/-- `reachable_sync_history`: the commits and the pruned commits behind one. -/
def reachableSyncHistory (start : Id) : Except Error (List Id) :=
  search s.commits (·.parents) s.expandHistory [start]

/-- The history of the receiver's head, as far as the sender has it. -/
def remoteHistory : Option Id → Except Error (List Id)
  | none => .ok []
  | some id => if (s.commits.get? id).isSome then s.reachableSyncHistory id else .ok []

/-- The trees of the commits among some ids. -/
def treesOf (ids : List Id) : List (Root Id) :=
  (ids.filterMap s.tryGetCommit).map (·.tree)

/-- A blob that is sent must be there. -/
def sendBlobs (ids : OrdMap Id Unit) : Except Error (OrdMap Id Bytes) := do
  checkAll (fun e => refuseIf ((s.blobs.get? e.1).isNone) (.versioning
    -- The key of a blob is `pb/` and its id.
    s!"version sync object 70622f{hex e.1} disappeared during export")) ids.entries
  return s.blobs.filter fun id => (ids.get? id).isSome

end Objects

/-- `export_sync_bundle`, against a head of the receiver. -/
def Store.exportSync (env : Env Id) (s : Store Id) (branch : String) (expected : Option Id) :
    Except Error (VersionRepositorySyncPayload Id × VersionRepositorySyncReport Id) := do
  validateVersionBranchName branch
  let target ← s.getBranch branch
  let source ← s.reachableSyncHistory target.commitId
  let remote ← s.remoteHistory expected
  let sourceNodes ← env.markReachable s.nodes (s.treesOf source)
  let remoteNodes ← env.markReachable s.nodes (s.treesOf remote)
  let sourceBlobs ← env.markReachableBlobs s.nodes (s.treesOf source)
  let remoteBlobs ← env.markReachableBlobs s.nodes (s.treesOf remote)
  let sent := fun id => id ∈ source ∧ id ∉ remote
  let blobs ← s.sendBlobs (insertAll ∅ (((sourceBlobs.map (·.cid)).filter
    fun id => id ∉ remoteBlobs.map (·.cid)).map (·, ())))
  let payload : VersionRepositorySyncPayload Id := {
    identity := s.identity
    branch := branch
    expected := expected
    target := target.commitId
    attestations := s.attestations.filter fun k =>
      (sent (ofLex k).1 ∧ (s.commits.get? (ofLex k).1).isSome) ∨ (ofLex k).1 = target.commitId
    blobs := blobs
    commits := s.commits.filter fun id => sent id
    nodes := s.nodes.filter fun id => id ∈ sourceNodes ∧ id ∉ remoteNodes
    prunedCommits := s.prunedCommits.filter fun id => sent id ∧ (s.commits.get? id).isNone }
  return (payload, repositorySyncReport payload expected
    (expected.all fun id => id ∈ source ∧ (s.commits.get? id).isSome) false
    (expected ≠ some target.commitId))

/-- `export_sync_bundle` -/
def Store.exportSyncBundle (env : Env Id) (s : Store Id) (branch : String)
    (expectedRemoteHead : Option String) :
    Except Error (VersionRepositorySyncPayload Id × VersionRepositorySyncReport Id) := do
  validateVersionBranchName branch
  let _ ← s.getBranch branch
  match expectedRemoteHead with
  | none => s.exportSync env branch none
  | some text => do
      let id ← parseCommitId text
      s.exportSync env branch (some id)

/-! ## Joining a pack -/

/-- Put a family of a pack into the receiver's; a record that is there must be the same. -/
def joinFamily {κ α : Type} [LinearOrder κ] [DecidableEq α] (key : κ → String)
    (m add : OrdMap κ α) : Except Error (OrdMap κ α) := do
  checkAll (fun e => refuseIf (m.get? e.1 ≠ none ∧ m.get? e.1 ≠ some e.2)
    (.invalid "version repository sync object"
      s!"object {key e.1} conflicts with destination content")) add.entries
  return m.insertAll add.entries

/-- The receiver's records and those of a pack. A commit that is sent is no longer pruned, and
a commit that is there does not become so. -/
def Objects.join (d : Objects Id) (p : VersionRepositorySyncPayload Id) :
    Except Error (Objects Id) := do
  let attestations ← joinFamily
    (fun k => s!"70612f{hex (ofLex k).1}2f{hexEncode (ofLex k).2.toUTF8.toList}") d.attestations
      p.attestations
  let blobs ← joinFamily (fun id => s!"70622f{hex id}") d.blobs p.blobs
  let commits ← joinFamily (fun id => s!"70632f{hex id}") d.commits p.commits
  let nodes ← joinFamily (fun id => s!"706e2f{hex id}") d.nodes p.nodes
  let kept := d.prunedCommits.filter fun id => (p.commits.get? id).isNone
  let added := p.prunedCommits.filter fun id => (commits.get? id).isNone
  return { d with
    attestations := attestations
    blobs := blobs
    commits := commits
    nodes := nodes
    prunedCommits := kept.insertAll added.entries }

/-! ## Applying a pack -/

def noHead : Option Id → String
  | none => "no head"
  | some id => hex id

def invalidSync (reason : String) : Error := .invalid "version repository sync" reason

/-- A check of a bundle, as it is reported for a pack. -/
def checkSync {α : Type} : Except Error α → Except Error Unit
  | .ok _ => .ok ()
  | .error e => .error (invalidSync e.text)

/-- `authorize_sync_target`: the publisher of a pack is the committer of its target. -/
def authorizeSyncTarget (d : Store Id) (branch : String) (commit : VersionCommitBody Id)
    (target : Id) : Except Error Unit :=
  d.authorizeBranchPublisher branch target commit.provenance

/-- The records of a pack that the receiver does not have. -/
def VersionRepositorySyncPayload.newObjects (p : VersionRepositorySyncPayload Id)
    (d : Objects Id) : Objects Id where
  attestations := p.attestations.filter fun k => (d.attestations.get? k).isNone
  blobs := p.blobs.filter fun id => (d.blobs.get? id).isNone
  commits := p.commits.filter fun id => (d.commits.get? id).isNone
  nodes := p.nodes.filter fun id => (d.nodes.get? id).isNone
  prunedCommits := p.prunedCommits.filter fun id => (d.prunedCommits.get? id).isNone
  branches := ∅
  reflogs := ∅
  tags := ∅

/-- The bytes of the history once a pack is applied. -/
def SyncSettings.projectedBytes (cfg : SyncSettings Id) (d : Store Id)
    (p : VersionRepositorySyncPayload Id) (reference : VersionRef Id) (updated : Bool) : Nat :=
  cfg.storedBytes d + cfg.objectsBytes (p.newObjects d.toObjects) +
    if updated then cfg.refBytes p.branch reference + 512 else 0

/-- The branch of a pack moves to its target. -/
def Store.moveSynced (cfg : Settings Id) (now : Nat) (branch : String) (previous : Option Id)
    (reference : VersionRef Id) (d : Store Id) : Except Error (Store Id) := do
  let reflogs ← d.appendReflog cfg now branch previous (some reference.commitId) .sync
  return { d with branches := d.branches.insert branch reference, reflogs := reflogs }

/-- `apply_sync_payload` -/
def applySyncPayload (env : Env Id) (cfg : SyncSettings Id) (now : Nat)
    (p : VersionRepositorySyncPayload Id) (force : Bool) (d : Store Id) :
    Except Error (VersionRepositorySyncReport Id × Store Id) := do
  refuseIf (p.identity ≠ d.identity) (.invalid "version repository sync identity"
    s!"source repository {p.identity.id} does not match destination repository {d.identity.id}")
  let previous := d.head p.branch
  refuseIf (previous ≠ p.expected) (.invalid "version repository sync compare-and-swap"
    s!"branch {p.branch} expected {noHead p.expected}, found {noHead previous}")
  refuseIf (force ∧ (d.protections.get? p.branch).isSome) (.invalid "version repository sync force"
    s!"cannot force-update protected branch {p.branch}; unprotect it first")
  let combined ← d.toObjects.join p
  checkSync (validateRepositoryBundlePayload env d.identity combined)
  let commit ← okOr (invalidSync s!"target commit {hex p.target} is not available")
    (combined.commits.get? p.target)
  let fastForward := previous.all fun ancestor => combined.commitIsAncestor ancestor p.target
  refuseIf (!fastForward && !force) (.invalid "version repository sync fast-forward"
    (s!"branch {p.branch} cannot advance from {noHead previous} to {hex p.target}; " ++
      "retry with force to replace history"))
  let joined : Store Id := { d with toObjects := combined }
  authorizeSyncTarget joined p.branch commit p.target
  let updated := previous ≠ some p.target
  cfg.historyQuota (cfg.projectedBytes d p ⟨p.target, commit.tree⟩ updated)
  let report := repositorySyncReport p previous fastForward (force && !fastForward) updated
  if updated then do
    let moved ← joined.moveSynced cfg.toSettings now p.branch previous ⟨p.target, commit.tree⟩
    return (report, moved)
  else return (report, joined)

/-- `validate_sync_objects_as_repository` -/
def validateSyncObjectsAsRepository (env : Env Id) (p : VersionRepositorySyncPayload Id) :
    Except Error Unit := do
  checkSync (validateRepositoryBundlePayload env p.identity p.objects)
  refuseIf ((p.commits.get? p.target).isNone)
    (invalidSync "a pack for an empty destination must contain its target commit")

/-- A pack for a branch that does not exist must be complete. -/
def checkFirstPack (env : Env Id) (p : VersionRepositorySyncPayload Id) : Except Error Unit :=
  match p.expected with
  | none => validateSyncObjectsAsRepository env p
  | some _ => .ok ()

/-- Open the repository of a volume, or make one. -/
def openReceiver (identity : VersionRepositoryIdentity) :
    Option (Store Id) → Except Error (Store Id)
  | some d => .ok d
  | none => openWithIdentity identity none

/-- `apply_sync_bundle`: the decoded pack is checked, and a volume without a repository adopts
the identity of the sender. -/
def applySyncBundle (env : Env Id) (cfg : SyncSettings Id) (now : Nat) (branch : String)
    (p : VersionRepositorySyncPayload Id) (force : Bool) (destination : Option (Store Id)) :
    Except Error (VersionRepositorySyncReport Id × Store Id) := do
  validateVersionRepositoryIdentity p.identity
  validateVersionBranchName p.branch
  validateVersionBranchName branch
  refuseIf (p.branch ≠ branch) (.invalid "version repository sync branch"
    s!"sync pack branch {p.branch} does not match requested branch {branch}")
  checkFirstPack env p
  let d ← openReceiver p.identity destination
  applySyncPayload env cfg now p force d

/-! ## What is sent -/

namespace Objects

variable {s : Objects Id}

/-- Behind the head of the receiver, as the sender has it. -/
def Known (s : Objects Id) (expected : Option Id) (id : Id) : Prop :=
  ∃ head, expected = some head ∧ (s.commits.get? head).isSome ∧ s.Ancestor id head

/-- A commit, or a pruned one, that is sent. -/
def Sends (s : Objects Id) (target : Id) (expected : Option Id) (id : Id) : Prop :=
  s.Ancestor id target ∧ ¬ s.Known expected id

/-- A node that is sent. -/
def SendsNode (s : Objects Id) (target : Id) (expected : Option Id) (n : Id) : Prop :=
  s.NodeOf (s.Ancestor · target) n ∧ ¬ s.NodeOf (s.Known expected) n

/-- A blob that is sent. -/
def SendsBlob (s : Objects Id) (target : Id) (expected : Option Id) (b : Id) : Prop :=
  s.BlobOf (s.Ancestor · target) b ∧ ¬ s.BlobOf (s.Known expected) b

variable {id : Id} {ids : List Id} {C : Id → Prop}

lemma expandHistory_ok {ys : List Id} (h : s.expandHistory id = .ok ys) : ys = s.parents id := by
  unfold expandHistory at h
  unfold parents follow
  cases hc : s.commits.get? id with
  | none =>
    rw [hc] at h
    simp only [] at h
    split at h
    · cases h
      rfl
    · cases h
  | some body =>
    rw [hc] at h
    cases h
    rfl

lemma reachableSyncHistory_isOk {start : Id} :
    (∃ ids, s.reachableSyncHistory start = .ok ids) ↔
      ∀ id, s.Ancestor id start → (s.commits.get? id).isSome ∨ s.isPrunedCommit id = true := by
  have hroot : (fun x => x ∈ [start]) = fun x => x = start := by
    funext x
    rw [List.mem_singleton]
  unfold reachableSyncHistory Ancestor
  rw [search_ok_iff fun _ _ => expandHistory_ok, hroot]
  refine forall_congr' fun x => imp_congr_right fun _ => ?_
  unfold expandHistory
  cases s.commits.get? x <;> cases s.isPrunedCommit x <;> simp

lemma mem_reachableSyncHistory {start : Id} (h : s.reachableSyncHistory start = .ok ids) :
    id ∈ ids ↔ s.Ancestor id start := by
  have hroot : (fun x => x ∈ [start]) = fun x => x = start := by
    funext x
    rw [List.mem_singleton]
  rw [mem_search (fun _ _ => expandHistory_ok) h, hroot]
  exact Iff.rfl

lemma mem_remoteHistory {expected : Option Id} (h : s.remoteHistory expected = .ok ids) :
    id ∈ ids ↔ s.Known expected id := by
  unfold Known
  cases expected with
  | none =>
    cases h
    simp
  | some head =>
    rw [remoteHistory] at h
    split at h
    · rename_i hp
      rw [mem_reachableSyncHistory h]
      exact ⟨fun ha => ⟨head, rfl, hp, ha⟩, fun ⟨_, rfl, _, ha⟩ => ha⟩
    · rename_i hp
      cases h
      exact ⟨nofun, fun ⟨_, rfl, hp', _⟩ => absurd hp' hp⟩

lemma get?_unitSet :
    ((insertAll (∅ : OrdMap Id Unit) (ids.map (·, ()))).get? id).isSome ↔ id ∈ ids := by
  constructor
  · intro h
    obtain ⟨u, hu⟩ := Option.isSome_iff_exists.mp h
    obtain ⟨i, hi, he⟩ := List.mem_map.mp ((mem_of_get?_insertAll hu).resolve_left nofun)
    cases he
    exact hi
  · intro h
    rw [get?_insertAll_of_agree ∅ ⟨(id, ()), List.mem_map.mpr ⟨id, h, rfl⟩, rfl⟩
      (v := ()) fun _ _ _ => rfl]
    rfl

lemma sendBlobs_ok {ids : OrdMap Id Unit} {blobs : OrdMap Id Bytes} :
    s.sendBlobs ids = .ok blobs ↔
      (∀ id, (ids.get? id).isSome → (s.blobs.get? id).isSome) ∧
        blobs = s.blobs.filter fun id => (ids.get? id).isSome := by
  unfold sendBlobs
  rw [then_eq_ok, checkAll_eq_ok, forall_entries]
  refine and_congr ⟨fun h id hid => ?_, fun h id u hid => ?_⟩ ⟨fun h => ?_, fun h => ?_⟩
  · obtain ⟨u, hu⟩ := Option.isSome_iff_exists.mp hid
    have := refuseIf_eq_ok.mp (h id u hu)
    rwa [Option.isNone_iff_eq_none, ← ne_eq, Option.ne_none_iff_isSome] at this
  · refine refuseIf_eq_ok.mpr ?_
    rw [Option.isNone_iff_eq_none, ← ne_eq, Option.ne_none_iff_isSome]
    exact h id (by rw [hid]; rfl)
  · cases h
    rfl
  · rw [h]
    rfl

end Objects

/-- **A pack**: the records of a branch that the sender takes the receiver to lack. -/
structure Pack (s : Store Id) (branch : String) (target : Id) (expected : Option Id)
    (p : VersionRepositorySyncPayload Id) : Prop where
  identity_eq : p.identity = s.identity
  branch_eq : p.branch = branch
  expected_eq : p.expected = expected
  target_eq : p.target = target
  attestation : ∀ k a, p.attestations.get? k = some a ↔
    ((s.Sends target expected (ofLex k).1 ∧ (s.commits.get? (ofLex k).1).isSome) ∨
      (ofLex k).1 = target) ∧ s.attestations.get? k = some a
  blob : ∀ id bytes, p.blobs.get? id = some bytes ↔
    s.SendsBlob target expected id ∧ s.blobs.get? id = some bytes
  commit : ∀ id body, p.commits.get? id = some body ↔
    s.Sends target expected id ∧ s.commits.get? id = some body
  node : ∀ id node, p.nodes.get? id = some node ↔
    s.SendsNode target expected id ∧ s.nodes.get? id = some node
  pruned : ∀ id, (p.prunedCommits.get? id).isSome ↔
    s.Sends target expected id ∧ s.commits.get? id = none ∧ s.isPrunedCommit id = true

lemma get?_filter_iff {κ α : Type} [LinearOrder κ] {m : OrdMap κ α} {q : κ → Prop}
    [DecidablePred q] {k : κ} {v : α} :
    (m.filter fun k => decide (q k)).get? k = some v ↔ q k ∧ m.get? k = some v := by
  rw [get?_filter]
  by_cases h : q k <;> simp [h]

variable {branch : String} {p : VersionRepositorySyncPayload Id}
  {report : VersionRepositorySyncReport Id} {env : Env Id} {cfg : SyncSettings Id} {now : Nat}
  {force : Bool} {d : Store Id}

/-- **What an export sends.** -/
theorem exportSync_pack {s : Store Id} {expected : Option Id}
    (h : s.exportSync env branch expected = .ok (p, report)) :
    ∃ target, s.branches.get? branch = some target ∧ Pack s branch target.commitId expected p := by
  unfold Store.exportSync at h
  simp only [↓then_eq_ok, bind_eq_ok] at h
  obtain ⟨-, target, ht, source, hsource, remote, hremote, nodes, hnodes, nodes', hnodes', blobs,
    hblobs, blobs', hblobs', sent, hsent, hp⟩ := h
  have hsource := fun id => (Objects.mem_reachableSyncHistory hsource : id ∈ source ↔ _)
  have hremote := fun id => (Objects.mem_remoteHistory hremote : id ∈ remote ↔ _)
  obtain ⟨-, rfl⟩ := Objects.sendBlobs_ok.mp hsent
  cases hp
  refine ⟨target, okOr_eq_ok.mp ht, rfl, rfl, rfl, rfl, fun k a => ?_, fun id bytes => ?_,
    fun id body => ?_, fun id node => ?_, fun id => ?_⟩
  · rw [get?_filter_iff, hsource, hremote]
    exact Iff.rfl
  · rw [get?_filter]
    simp only [Objects.get?_unitSet, List.mem_filter, decide_eq_true_eq,
      Objects.mem_blobs_eq hsource hblobs, Objects.mem_blobs_eq hremote hblobs',
      Option.ite_none_right_eq_some]
    exact Iff.rfl
  · rw [get?_filter_iff, hsource, hremote]
    exact Iff.rfl
  · rw [get?_filter_iff, env.mem_marks hnodes, env.mem_marks hnodes', Objects.treesOf,
      Objects.treesOf, Objects.inTrees_eq hsource, Objects.inTrees_eq hremote]
    exact Iff.rfl
  · rw [Option.isSome_iff_exists]
    simp only [get?_filter_iff, hsource, hremote, Option.isNone_iff_eq_none, and_assoc]
    unfold Objects.isPrunedCommit
    rw [Option.isSome_iff_exists]
    exact ⟨fun ⟨u, h1, h2, h3, h4⟩ => ⟨⟨h1, h2⟩, h3, u, h4⟩,
      fun ⟨⟨h1, h2⟩, h3, u, h4⟩ => ⟨u, h1, h2, h3, h4⟩⟩

/-! ## What the receiver then holds -/

lemma joinFamily_ok {κ α : Type} [LinearOrder κ] [DecidableEq α] {key : κ → String}
    {m add m' : OrdMap κ α} :
    joinFamily key m add = .ok m' ↔ OrdMap.Agree m add ∧ m' = m.insertAll add.entries := by
  unfold joinFamily
  rw [then_eq_ok, checkAll_eq_ok, forall_entries]
  refine and_congr ⟨fun h k v w hv hw => ?_, fun h k w hw => ?_⟩ ⟨fun h => ?_, fun h => ?_⟩
  · have := refuseIf_eq_ok.mp (h k w hw)
    rw [hv] at this
    simpa using this
  · refine refuseIf_eq_ok.mpr ?_
    cases hv : m.get? k with
    | none => simp
    | some v => simp [h k v w hv hw]
  · cases h
    rfl
  · rw [h]
    rfl

/-- No record of a pack differs from the receiver's own. -/
structure Agreeing (d : Objects Id) (p : VersionRepositorySyncPayload Id) : Prop where
  attestation : OrdMap.Agree d.attestations p.attestations
  blob : OrdMap.Agree d.blobs p.blobs
  commit : OrdMap.Agree d.commits p.commits
  node : OrdMap.Agree d.nodes p.nodes

/-- The records of the receiver and of a pack, together. -/
structure Joined (d : Objects Id) (p : VersionRepositorySyncPayload Id) (o : Objects Id) :
    Prop where
  attestation : ∀ k a, o.attestations.get? k = some a ↔
    d.attestations.get? k = some a ∨ p.attestations.get? k = some a
  blob : ∀ id bytes, o.blobs.get? id = some bytes ↔
    d.blobs.get? id = some bytes ∨ p.blobs.get? id = some bytes
  commit : ∀ id body, o.commits.get? id = some body ↔
    d.commits.get? id = some body ∨ p.commits.get? id = some body
  node : ∀ id node, o.nodes.get? id = some node ↔
    d.nodes.get? id = some node ∨ p.nodes.get? id = some node
  pruned : ∀ id, o.isPrunedCommit id = true ↔
    (d.isPrunedCommit id = true ∧ p.commits.get? id = none) ∨
      ((p.prunedCommits.get? id).isSome ∧ o.commits.get? id = none)
  branches : o.branches = d.branches
  reflogs : o.reflogs = d.reflogs
  tags : o.tags = d.tags

/-- **A pack that is joined agrees with the receiver.** -/
theorem join_ok {d o : Objects Id} (h : d.join p = .ok o) : Agreeing d p ∧ Joined d p o := by
  unfold Objects.join at h
  simp only [bind_eq_ok, joinFamily_ok] at h
  obtain ⟨_, ⟨ha, rfl⟩, _, ⟨hb, rfl⟩, _, ⟨hc, rfl⟩, _, ⟨hn, rfl⟩, ⟨⟩⟩ := h
  refine ⟨⟨ha, hb, hc, hn⟩, fun _ _ => get?_insertAll_entries ha,
    fun _ _ => get?_insertAll_entries hb, fun _ _ => get?_insertAll_entries hc,
    fun _ _ => get?_insertAll_entries hn, fun id => ?_, rfl, rfl, rfl⟩
  unfold Objects.isPrunedCommit
  simp only [Option.isSome_iff_exists]
  -- Two markers are always the same.
  have hunit : ∀ m n : OrdMap Id Unit, OrdMap.Agree m n := fun _ _ _ _ _ _ _ => rfl
  simp only [get?_insertAll_entries (hunit _ _), exists_or, get?_filter,
    Option.ite_none_right_eq_some, Option.isNone_iff_eq_none, exists_and_left]
  rw [and_comm, and_comm (a := _ = none)]

lemma join_isOk {d : Objects Id} (h : Agreeing d p) : ∃ o, d.join p = .ok o := by
  unfold Objects.join
  simp only [bind_eq_ok, joinFamily_ok]
  exact ⟨_, _, ⟨h.attestation, rfl⟩, _, ⟨h.blob, rfl⟩, _, ⟨h.commit, rfl⟩, _, ⟨h.node, rfl⟩, rfl⟩

lemma checkSync_ok {α : Type} {x : Except Error α} : checkSync x = .ok () ↔ ∃ r, x = .ok r := by
  cases x with
  | ok r => exact ⟨fun _ => ⟨r, rfl⟩, fun _ => rfl⟩
  | error e => exact ⟨nofun, fun ⟨_, h⟩ => nomatch h⟩

/-- **A pack that was applied**: what its checks said, and what was written. -/
structure Applied (env : Env Id) (cfg : SyncSettings Id) (now : Nat)
    (p : VersionRepositorySyncPayload Id) (force : Bool) (d d' : Store Id) (o : Objects Id)
    (body : VersionCommitBody Id) : Prop where
  same : p.identity = d.identity
  swap : d.head p.branch = p.expected
  unforced : force = true → d.protections.get? p.branch = none
  joined : d.toObjects.join p = .ok o
  portable : Portable env d.identity o
  found : o.commits.get? p.target = some body
  advances : force = true ∨ ∀ head, d.head p.branch = some head → o.Ancestor head p.target
  authorized : authorizeSyncTarget { d with toObjects := o } p.branch body p.target = .ok ()
  stored : if d.head p.branch = some p.target then d' = { d with toObjects := o }
    else Store.moveSynced cfg.toSettings now p.branch (d.head p.branch) ⟨p.target, body.tree⟩
      { d with toObjects := o } = .ok d'

/-- **What a pack does to the receiver.** -/
theorem applySyncPayload_applied {d' : Store Id}
    (h : applySyncPayload env cfg now p force d = .ok (report, d')) :
    ∃ o body, Applied env cfg now p force d d' o body := by
  unfold applySyncPayload at h
  simp only [↓then_eq_ok, bind_eq_ok, refuseIf_eq_ok, checkSync_ok, okOr_eq_ok, not_not] at h
  obtain ⟨hid, hswap, hforce, o, ho, hportable, body, hbody, hff, hauth, -, h⟩ := h
  refine ⟨o, body, hid, hswap, fun hf => ?_, ho, validate_ok_iff.mp hportable, hbody, ?_, hauth, ?_⟩
  · have : ¬ (d.protections.get? p.branch).isSome := fun hp => hforce ⟨hf, hp⟩
    simpa using this
  · cases hf : force with
    | true => exact .inl rfl
    | false =>
      refine .inr fun head hh => commitIsAncestor_iff.mp ?_
      rw [hf, hh] at hff
      simpa using hff
  · by_cases hu : d.head p.branch = some p.target
    · rw [if_pos hu]
      rw [if_neg (not_not.mpr hu)] at h
      cases h
      rfl
    · rw [if_neg hu]
      rw [if_pos hu] at h
      obtain ⟨moved, hm, ⟨⟩⟩ := bind_eq_ok.mp h
      exact hm

/-- A pack that is opened for a repository is applied to it. -/
lemma applySyncBundle_payload {r : VersionRepositorySyncReport Id × Store Id}
    (h : applySyncBundle env cfg now branch p force (some d) = .ok r) :
    validateVersionBranchName p.branch = .ok () ∧
      applySyncPayload env cfg now p force d = .ok r := by
  unfold applySyncBundle at h
  simp only [↓then_eq_ok, bind_eq_ok] at h
  obtain ⟨-, hname, -, -, -, _, ⟨⟩, h⟩ := h
  exact ⟨hname, h⟩

/-- **A pack that meets its checks is applied.** -/
theorem applySyncPayload_isOk {d' : Store Id} {o : Objects Id} {body : VersionCommitBody Id}
    (hmax : cfg.maxBytes = none) (h : Applied env cfg now p force d d' o body) :
    ∃ report, applySyncPayload env cfg now p force d = .ok (report, d') := by
  have hquota : ∀ n, cfg.historyQuota n = .ok () := by
    intro n
    unfold Settings.historyQuota
    rw [hmax]
  unfold applySyncPayload
  simp only [↓then_eq_ok, bind_eq_ok, refuseIf_eq_ok, checkSync_ok, okOr_eq_ok, not_not, hquota,
    true_and]
  have hff :
      ¬ ((!(d.head p.branch).all fun a => o.commitIsAncestor a p.target) && !force) = true := by
    rcases h.advances with hf | ha
    · simp [hf]
    cases hh : d.head p.branch with
    | none => simp
    | some head => simp [commitIsAncestor_iff.mpr (ha head hh)]
  have hforce : ¬ (force = true ∧ (d.protections.get? p.branch).isSome = true) := by
    rintro ⟨hf, hp⟩
    rw [h.unforced hf] at hp
    cases hp
  have hstored := h.stored
  let ff := (d.head p.branch).all fun a => o.commitIsAncestor a p.target
  by_cases hu : d.head p.branch = some p.target
  · rw [if_pos hu] at hstored
    refine ⟨repositorySyncReport p (d.head p.branch) ff (force && !ff)
      (d.head p.branch ≠ some p.target), h.same, h.swap, hforce, o, h.joined,
      validate_ok_iff.mpr h.portable, body, h.found, hff, h.authorized, ?_⟩
    rw [if_neg (not_not.mpr hu), hstored]
    rfl
  · rw [if_neg hu] at hstored
    refine ⟨repositorySyncReport p (d.head p.branch) ff (force && !ff)
      (d.head p.branch ≠ some p.target), h.same, h.swap, hforce, o, h.joined,
      validate_ok_iff.mpr h.portable, body, h.found, hff, h.authorized, ?_⟩
    rw [if_pos hu]
    exact bind_eq_ok.mpr ⟨d', hstored, rfl⟩

end Version

end SlateFs
