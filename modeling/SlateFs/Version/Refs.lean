import SlateFs.Version.Bundle

/-!
# References

How branches, tags, reflogs, protections and attestations change (`impl VersionStore`).
Every operation reads, checks and then writes one atomic batch, under the lock of the
references; so it is a function from stores to stores, or an error that leaves the
store as it was.

The bytes that a record takes, the digests of idempotency keys and requests, and the
limits of the retention policy are the `Settings` of a call.
-/

namespace SlateFs.Version

variable {Id : Type} [ObjectId Id]

/-- What the fingerprint of an idempotent request is the digest of. -/
inductive VersionRequestFingerprint (Id : Type) where
  | commit (branch message : String) (paths : List String) (author committer : String)
  | cherryPick (source : Id) (target : String) (mainline : Option Nat) (author committer : String)
  deriving DecidableEq

/-- The settings under which a repository is open. -/
structure Settings (Id : Type) [ObjectId Id] where
  maxBytes : Option Nat
  reflogKeepLast : Nat
  storedBytes : Store Id → Nat
  commitBytes : VersionCommit Id → Nat
  attestationBytes : Id → String → VersionCommitAttestation → Nat
  keyHash : String → Id
  requestFingerprint : VersionRequestFingerprint Id → Id

/-- The settings of a repository without a limit. -/
def Settings.unlimited (id : Id) : Settings Id where
  maxBytes := none
  reflogKeepLast := 100
  storedBytes _ := 0
  commitBytes _ := 0
  attestationBytes _ _ _ := 0
  keyHash _ := id
  requestFingerprint _ := id

/-! ## Checks -/

def refuseIf (c : Prop) [Decidable c] (e : Error) : Except Error Unit :=
  if c then .error e else .ok ()

@[simp] lemma refuseIf_eq_ok {c : Prop} [Decidable c] {e : Error} :
    refuseIf c e = .ok () ↔ ¬ c := by
  unfold refuseIf
  split <;> simp_all

/-- `ok_or_else` -/
def okOr {α : Type} (e : Error) : Option α → Except Error α
  | none => .error e
  | some a => .ok a

@[simp] lemma okOr_eq_ok {α : Type} {e : Error} {o : Option α} {a : α} :
    okOr e o = .ok a ↔ o = some a := by
  cases o <;> simp [okOr]

/-- The limit on the bytes of the history. -/
def Settings.historyQuota (cfg : Settings Id) (projected : Nat) : Except Error Unit :=
  match cfg.maxBytes with
  | none => .ok ()
  | some maxBytes => refuseIf (projected > maxBytes) (.versioning
      s!"version history quota exceeded: {projected} bytes projected, {maxBytes} bytes allowed")

/-- `get_commit` -/
def Objects.getCommit (s : Objects Id) (id : Id) : Except Error (VersionCommit Id) :=
  okOr (.notFound "version commit" (hex id)) (s.tryGetCommit id)

@[simp] lemma Objects.getCommit_eq_ok {s : Objects Id} {id : Id} {c : VersionCommit Id} :
    s.getCommit id = .ok c ↔ c.id = id ∧ s.commits.get? id = some c.toVersionCommitBody := by
  unfold getCommit tryGetCommit
  rw [okOr_eq_ok, Option.map_eq_some_iff]
  constructor
  · rintro ⟨body, hb, rfl⟩
    exact ⟨rfl, hb⟩
  · rintro ⟨rfl, hb⟩
    exact ⟨_, hb, rfl⟩

/-- The reference to a commit. -/
def VersionCommit.ref (c : VersionCommit Id) : VersionRef Id := ⟨c.id, c.tree⟩

/-- The head of a branch. -/
def Objects.head (s : Objects Id) (branch : String) : Option Id :=
  (s.branches.get? branch).map (·.commitId)

namespace Store

def getBranch (s : Store Id) (name : String) : Except Error (VersionRef Id) :=
  okOr (.notFound "version branch" name) (s.branches.get? name)

/-- `reject_protected_branch` -/
def rejectProtectedBranch (s : Store Id) (name operation : String) : Except Error Unit :=
  refuseIf ((s.protections.get? name).isSome) (.invalid "version branch operation"
    s!"cannot {operation} protected branch {name}; unprotect it first")

/-- `authorize_branch_publisher` -/
def authorizeBranchPublisher (s : Store Id) (name : String) (commit : Id)
    (provenance : VersionCommitProvenance) : Except Error Unit :=
  match s.protections.get? name with
  | none => .ok ()
  | some p => do
      refuseIf (p.allowedCommitters ≠ [] ∧ provenance.committer ∉ p.allowedCommitters)
        (.invalid "version branch authorization"
          s!"committer {provenance.committer} is not allowed to publish to protected branch {name}")
      refuseIf (s.trustedAttestationCount commit p.trustedAttestationKeys < p.requiredAttestations)
        (.invalid "version branch attestation authorization"
          (s!"commit {hex commit} does not have the {p.requiredAttestations} trusted " ++
            s!"attestations required by protected branch {name}"))

/-- `authorize_branch_policy_manager` -/
def authorizeBranchPolicyManager (s : Store Id) (name manager : String) : Except Error Unit :=
  match s.protections.get? name with
  | none => .ok ()
  | some p => refuseIf (p.allowedManagers ≠ [] ∧ manager ∉ p.allowedManagers)
      (.invalid "version branch policy authorization"
        s!"manager {manager} is not allowed to change protected branch {name}")

/-! ## Reflogs -/

/-- The sequence numbers of a branch's reflog, oldest first. -/
def reflogSequences (s : Store Id) (branch : String) : List Nat :=
  (s.reflogs.scan fun k => (ofLex k).1 = branch).map (fun e => (ofLex e.1).2)

/-- `append_reflog`: the reflogs with one more entry, the oldest beyond the window dropped. -/
def appendReflog (cfg : Settings Id) (now : Nat) (s : Store Id) (branch : String)
    (previous commit : Option Id) (action : VersionReflogAction) :
    Except Error (OrdMap (String ×ₗ Nat) (VersionReflogRecord Id)) := do
  let existing := s.reflogSequences branch
  let sequence := existing.getLast?.getD 0 + 1
  refuseIf (sequence ≥ 2 ^ 64) (.versioning s!"branch {branch} reflog is exhausted")
  let excess := existing.length + 1 - cfg.reflogKeepLast
  return (s.reflogs.eraseAll ((existing.take excess).map fun n => toLex (branch, n))).insert
    (toLex (branch, sequence)) ⟨previous, commit, action, now⟩

variable {cfg : Settings Id} {s : Store Id} {branch : String} {action : VersionReflogAction}

lemma appendReflog_isOk {now : Nat} {previous commit : Option Id} :
    (∃ reflogs, s.appendReflog cfg now branch previous commit action = .ok reflogs) ↔
      (s.reflogSequences branch).getLast?.getD 0 + 1 < 2 ^ 64 := by
  unfold appendReflog
  simp only [↓then_eq_ok, refuseIf_eq_ok, Nat.not_le, ge_iff_le]
  exact ⟨fun ⟨_, h, _⟩ => h, fun h => ⟨_, h, rfl⟩⟩

/-- An entry of a reflog that was appended to is an old one or the new one. -/
lemma appendReflog_ok {now : Nat} {previous commit : Option Id}
    {reflogs : OrdMap (String ×ₗ Nat) (VersionReflogRecord Id)}
    (h : s.appendReflog cfg now branch previous commit action = .ok reflogs) {k : String ×ₗ Nat}
    {r : VersionReflogRecord Id} (hk : reflogs.get? k = some r) :
    s.reflogs.get? k = some r ∨ (ofLex k).1 = branch ∧ r = ⟨previous, commit, action, now⟩ := by
  unfold appendReflog at h
  simp only [↓then_eq_ok] at h
  obtain ⟨-, ⟨⟩⟩ := h
  rw [OrdMap.get?_insert] at hk
  split at hk
  · rename_i heq
    cases hk
    exact .inr ⟨by rw [heq]; rfl, rfl⟩
  · rw [OrdMap.get?_eraseAll] at hk
    split at hk
    · cases hk
    · exact .inl hk

/-- `prune_reflogs` -/
def pruneReflogs (cfg : Settings Id) (s : Store Id) : Nat × Store Id :=
  let branches := (s.reflogs.entries.map fun e => (ofLex e.1).1).dedup
  let excess := branches.flatMap fun branch =>
    let existing := s.reflogSequences branch
    (existing.take (existing.length - cfg.reflogKeepLast)).map fun n => toLex (branch, n)
  (excess.length, { s with reflogs := s.reflogs.eraseAll excess })

/-! ## Publishing -/

end Store

structure VersionCommitIdempotencyIntent (Id : Type) where
  keyHash : Id
  requestFingerprint : Id

inductive VersionPublishOutcome (Id : Type) where
  | published
  | replayed (commit : VersionCommit Id)

structure VersionPublishRequest (Id : Type) where
  branch : String
  expected : Option Id
  requiredRef : Option (String × Id)
  commit : VersionCommit Id
  idempotency : Option (VersionCommitIdempotencyIntent Id)
  reflogAction : VersionReflogAction

namespace Store

variable (s : Store Id) (cfg : Settings Id) (now : Nat)

/-- `resolve_idempotency` -/
def resolveIdempotency (intent : VersionCommitIdempotencyIntent Id) :
    Except Error (Option (VersionCommit Id)) :=
  match s.idempotency.get? intent.keyHash with
  | none => .ok none
  | some record => do
      refuseIf (record.requestFingerprint ≠ intent.requestFingerprint)
        (.alreadyExists "version commit idempotency key" (hex intent.keyHash))
      let commit ← okOr (.versioning
        s!"idempotency record references missing commit {hex record.commitId}")
        (s.tryGetCommit record.commitId)
      return some commit

/-- The commit that an idempotent request has published before. -/
def replay : Option (VersionCommitIdempotencyIntent Id) →
    Except Error (Option (VersionCommit Id))
  | none => .ok none
  | some intent => s.resolveIdempotency intent

def hexOrEmpty : Option Id → String
  | none => "empty"
  | some id => hex id

/-- Another branch must still be where a merge found it. -/
def requireRef : Option (String × Id) → Except Error Unit
  | none => .ok ()
  | some (branch, commit) => refuseIf (s.head branch ≠ some commit)
      (.versioning s!"branch {branch} moved while merging")

/-- The records of a published commit. -/
def published (r : VersionPublishRequest Id)
    (reflogs : OrdMap (String ×ₗ Nat) (VersionReflogRecord Id)) : Store Id :=
  { s with
    commits := s.commits.insert r.commit.id r.commit.toVersionCommitBody
    branches := s.branches.insert r.branch r.commit.ref
    reflogs := reflogs
    idempotency := match r.idempotency with
      | none => s.idempotency
      | some intent =>
        s.idempotency.insert intent.keyHash ⟨r.commit.id, intent.requestFingerprint⟩ }

/-- `publish_commit` -/
def publishCommit (r : VersionPublishRequest Id) (s : Store Id) :
    Except Error (VersionPublishOutcome Id × Store Id) := do
  match ← s.replay r.idempotency with
  | some existing => return (.replayed existing, s)
  | none =>
    let subject := if r.branch = "main" then "branch" else s!"branch {r.branch}"
    refuseIf (s.head r.branch ≠ r.expected) (.versioning
      (s!"{subject} moved while committing; expected {hexOrEmpty r.expected}, " ++
        s!"found {hexOrEmpty (s.head r.branch)}"))
    s.authorizeBranchPublisher r.branch r.commit.id r.commit.provenance
    s.requireRef r.requiredRef
    cfg.historyQuota (cfg.storedBytes s + cfg.commitBytes r.commit)
    let reflogs ← s.appendReflog cfg now r.branch r.expected (some r.commit.id) r.reflogAction
    return (.published, s.published r reflogs)

/-! ## Tags and branches -/

/-- `create_tag` -/
def createTag (name : String) (tag : VersionTag Id) (s : Store Id) : Except Error (Store Id) := do
  refuseIf ((s.tags.get? name).isSome) (.alreadyExists "version tag" name)
  refuseIf ((s.branches.get? name).isSome) (.alreadyExists "version branch" name)
  return { s with tags := s.tags.insert name tag }

/-- `delete_tag` -/
def deleteTag (name : String) (s : Store Id) : Except Error (VersionTag Id × Store Id) := do
  let tag ← okOr (.notFound "version tag" name) (s.tags.get? name)
  return (tag, { s with tags := s.tags.erase name })

/-- `create_branch` -/
def createBranch (name : String) (reference : VersionRef Id) (s : Store Id) :
    Except Error (Store Id) := do
  refuseIf ((s.branches.get? name).isSome) (.alreadyExists "version branch" name)
  refuseIf ((s.tags.get? name).isSome) (.alreadyExists "version tag" name)
  refuseIf ((s.protections.get? name).isSome) (.alreadyExists "version branch protection" name)
  let reflogs ← s.appendReflog cfg now name none (some reference.commitId) .create
  return { s with branches := s.branches.insert name reference, reflogs := reflogs }

/-- `delete_branch` -/
def deleteBranch (name : String) (s : Store Id) :
    Except Error (VersionRef Id × Store Id) := do
  s.rejectProtectedBranch name "delete"
  let reference ← s.getBranch name
  let reflogs ← s.appendReflog cfg now name (some reference.commitId) none .delete
  return (reference, { s with branches := s.branches.erase name, reflogs := reflogs })

/-- `reset_branch` -/
def resetBranch (name : String) (expected : Id) (reference : VersionRef Id) (s : Store Id) :
    Except Error (Store Id) := do
  s.rejectProtectedBranch name "reset"
  let current ← s.getBranch name
  refuseIf (current.commitId ≠ expected) (.versioning
    s!"branch {name} moved while resetting; expected {hex expected}, found {hex current.commitId}")
  let reflogs ← s.appendReflog cfg now name (some current.commitId) (some reference.commitId) .reset
  return { s with branches := s.branches.insert name reference, reflogs := reflogs }

/-- `fast_forward_branch` -/
def fastForwardBranch (source target : String) (expectedSource expectedTarget : Id)
    (provenance : VersionCommitProvenance) (s : Store Id) :
    Except Error (VersionRef Id × Store Id) := do
  let sourceRef ← s.getBranch source
  let targetRef ← s.getBranch target
  refuseIf (sourceRef.commitId ≠ expectedSource ∨ targetRef.commitId ≠ expectedTarget)
    (.versioning "branch moved while preparing fast-forward merge")
  s.authorizeBranchPublisher target sourceRef.commitId provenance
  let reflogs ← s.appendReflog cfg now target (some targetRef.commitId) (some sourceRef.commitId)
    .fastForward
  return (sourceRef, { s with branches := s.branches.insert target sourceRef, reflogs := reflogs })

/-- `recover_branch`: the head before a reflog entry. -/
def recoverBranch (name : String) (sequence : Nat) (s : Store Id) :
    Except Error ((Option (VersionRef Id) × VersionRef Id) × Store Id) := do
  s.rejectProtectedBranch name "recover"
  let record ← okOr (.notFound "version branch reflog entry" s!"{name}/{sequence}")
    (s.reflogs.get? (toLex (name, sequence)))
  let targetId ← okOr (.invalid "version branch recovery"
    s!"reflog entry {sequence} has no preceding head") record.previous
  let commit ← s.getCommit targetId
  let current := s.branches.get? name
  refuseIf (s.head name = some targetId) (.invalid "version branch recovery"
    s!"branch {name} already points to {hex targetId}")
  refuseIf (current.isNone ∧ (s.tags.get? name).isSome) (.alreadyExists "version tag" name)
  let reflogs ← s.appendReflog cfg now name (s.head name) (some targetId) .recover
  return ((current, commit.ref),
    { s with branches := s.branches.insert name commit.ref, reflogs := reflogs })

end Store

/-! ## Protection and attestations -/

/-- `normalize_branch_identities` -/
def normalizeBranchIdentities (what : String) (values : List String) :
    Except Error (List String) := do
  refuseIf (values.length > 64) (.invalid what "must contain at most 64 identities")
  checkAll (validateVersionIdentity what) values
  return dedup (values.mergeSort fun a b => a ≤ b)

/-- `VersionBranchProtectionPolicy`: its lists are normalised, and the quorum can be met. -/
structure VersionBranchProtectionPolicy (env : Env Id) where
  allowedCommitters : List String
  allowedManagers : List String
  trustedAttestationKeys : List VersionTrustedAttestationKey
  requiredAttestations : Nat
  /-- The keys are the normal form of an accepted list. -/
  normalized : ∃ keys, normalizeTrustedAttestationKeys env keys = .ok trustedAttestationKeys
  required : validateRequiredAttestations trustedAttestationKeys requiredAttestations = .ok ()

/-- `VersionBranchProtectionPolicy::new` -/
def VersionBranchProtectionPolicy.new (env : Env Id)
    (allowedCommitters allowedManagers : List String)
    (trustedAttestationKeys : List VersionTrustedAttestationKey) (requiredAttestations : Nat) :
    Except Error (VersionBranchProtectionPolicy env) :=
  match hk : normalizeTrustedAttestationKeys env trustedAttestationKeys with
  | .error e => .error e
  | .ok keys =>
    match hr : validateRequiredAttestations keys requiredAttestations with
    | .error e => .error e
    | .ok () => do
        let committers ← normalizeBranchIdentities "version branch allowed committers"
          allowedCommitters
        let managers ← normalizeBranchIdentities "version branch allowed managers" allowedManagers
        return ⟨committers, managers, keys, requiredAttestations, ⟨_, hk⟩, hr⟩

namespace Store

/-- Put a protection on a branch, or take it away. -/
def withProtection {env : Env Id} (now : Nat) (name : String) (isProtected : Bool)
    (policy : VersionBranchProtectionPolicy env) (s : Store Id) : Store Id :=
  { s with protections := match isProtected with
    | true => s.protections.insert name ⟨now, policy.allowedCommitters, policy.allowedManagers,
        policy.trustedAttestationKeys, policy.requiredAttestations⟩
    | false => s.protections.erase name }

/-- `set_branch_protected` -/
def setBranchProtected {env : Env Id} (now : Nat) (name : String) (isProtected : Bool)
    (policy : VersionBranchProtectionPolicy env) (manager : Option String) (s : Store Id) :
    Except Error (VersionRef Id × Store Id) := do
  let reference ← s.getBranch name
  match manager with
  | none => pure ()
  | some manager => s.authorizeBranchPolicyManager name manager
  refuseIf (isProtected ∧ s.trustedAttestationCount reference.commitId
      policy.trustedAttestationKeys < policy.requiredAttestations)
    (.invalid "version branch protection" (s!"branch {name} head {hex reference.commitId} " ++
      s!"does not have the required {policy.requiredAttestations} trusted attestations"))
  return (reference, s.withProtection now name isProtected policy)

/-- `put_attestation`: an attestation is never replaced. -/
def putAttestation (cfg : Settings Id) (commit : Id) (keyId : String)
    (attestation : VersionCommitAttestation) (s : Store Id) : Except Error (Store Id) :=
  match s.attestations.get? (toLex (commit, keyId)) with
  | some existing =>
    if existing = attestation then .ok s
    else .error (.alreadyExists "version commit attestation key" keyId)
  | none => do
      cfg.historyQuota (cfg.storedBytes s + cfg.attestationBytes commit keyId attestation)
      return { s with attestations := s.attestations.insert (toLex (commit, keyId)) attestation }

/-- A name that is a tag or a branch. -/
def resolveName (s : Store Id) (reference : String) : Except Error (VersionCommit Id) :=
  match s.tags.get? reference with
  | some tag =>
    okOr (.versioning s!"version tag {reference} references missing commit {hex tag.commitId}")
      (s.tryGetCommit tag.commitId)
  | none =>
    match s.branches.get? reference with
    | some branch =>
      okOr (.versioning
        s!"version branch {reference} references missing commit {hex branch.commitId}")
        (s.tryGetCommit branch.commitId)
    | none => .error (.notFound "version commit, tag, or branch" reference)

/-- `resolve_commit`: an id, a tag or a branch, in this order. -/
def resolveCommit (s : Store Id) (reference : String) : Except Error (VersionCommit Id) :=
  match (parseCommitId reference : Except Error Id) with
  | .ok id => s.getCommit id
  | .error _ => do
      validateVersionNamedRef "version reference" reference
      s.resolveName reference

end Store

end SlateFs.Version
