import SlateFs.Version.Records
import Mathlib.Data.String.Basic

/-!
# The version store, and what verification asks of it

A version store is a set of families of records, one for each key space of
`versioning.rs`. `verify` walks everything that a branch, a tag or a reflog entry
reaches; `exportBundle` verifies and then checks every portable record.

Each check is read as a proposition: a store is verified when `Verified` holds of
it, and portable when `Portable` holds.
-/

namespace SlateFs.Version

open OrdMap Worklist

/-- The records that a repository bundle carries, by family. -/
structure Objects (Id : Type) [ObjectId Id] where
  attestations : OrdMap (Id ×ₗ String) VersionCommitAttestation
  blobs : OrdMap Id Bytes
  commits : OrdMap Id (VersionCommitBody Id)
  nodes : OrdMap Id (Node Id)
  prunedCommits : OrdMap Id Unit
  branches : OrdMap String (VersionRef Id)
  reflogs : OrdMap (String ×ₗ Nat) (VersionReflogRecord Id)
  tags : OrdMap String (VersionTag Id)

/-- A version store. -/
structure Store (Id : Type) [ObjectId Id] extends Objects Id where
  idempotency : OrdMap Id (VersionCommitIdempotencyRecord Id)
  protections : OrdMap String VersionBranchProtection
  identity : VersionRepositoryIdentity

variable {Id : Type} [ObjectId Id]

namespace Objects

variable (s : Objects Id)

/-- `try_get_commit` -/
def tryGetCommit (id : Id) : Option (VersionCommit Id) :=
  (s.commits.get? id).map (fun body => ⟨body, id⟩)

def isPrunedCommit (id : Id) : Bool := (s.prunedCommits.get? id).isSome

/-- The parents of a commit the store holds. -/
def parents : Id → List Id := follow s.commits (·.parents)

/-- The children of a node the store holds. -/
def children : Id → List Id := follow s.nodes Node.children

/-- `reflog_commit_ids` -/
def reflogCommitIds : List Id :=
  s.reflogs.entries.flatMap (fun e => e.2.commitIds)

/-- Where every walk over the history starts. -/
def roots : List Id :=
  s.branches.entries.map (fun e => e.2.commitId) ++
    (s.tags.entries.map (fun e => e.2.commitId) ++ s.reflogCommitIds)

/-- `list_attestations` -/
def listAttestations (commit : Id) : List (String × VersionCommitAttestation) :=
  (s.attestations.scan (fun k => (ofLex k).1 = commit)).map (fun e => ((ofLex e.1).2, e.2))

/-- `trusted_attestation_key_ids` -/
def trustedAttestationKeyIds (commit : Id) (trusted : List VersionTrustedAttestationKey) :
    List String :=
  ((s.listAttestations commit).filter fun e => trusted.any fun key =>
    key.keyId = e.1 && key.algorithm = e.2.algorithm && key.publicKey = e.2.publicKey).map (·.1)

/-- `trusted_attestation_count` -/
def trustedAttestationCount (commit : Id) (trusted : List VersionTrustedAttestationKey) : Nat :=
  (s.trustedAttestationKeyIds commit trusted).length

end Objects

/-! ## Checks -/

/-- `get_blob`; the bytes are checked against the reference. -/
def getBlob (env : Env Id) (s : Objects Id) (reference : BlobRef Id) :
    Except Error (Option Bytes) :=
  match s.blobs.get? reference.cid with
  | none => .ok none
  | some bytes =>
    if env.blobDigest bytes = reference.cid ∧ bytes.length = reference.len then
      .ok (some bytes)
    else .error (.versioning "invalid version-store data: blob does not match its reference")

/-- `Error.invalid` of a path. -/
def invalidPath (reason : String) : Error := .invalid "versioned path" reason

/-- The non-empty components of a path. -/
def pathComponents (path : String) : List (List Char) :=
  (path.toList.splitOn '/').filter (fun c => c ≠ [])

/-- `canonical_path` -/
def canonicalPath (path : String) : Except Error String :=
  if path.toList.contains '\x00' then .error (invalidPath "contains NUL")
  else if (pathComponents path).isEmpty then .error (invalidPath "must name a file")
  else if (pathComponents path).any (fun c => c = ['.'] || c = ['.', '.']) then
    .error (invalidPath "dot components are not allowed")
  else .ok (String.ofList ('/' :: ['/'].intercalate (pathComponents path)))

def isCanonical (path : String) : Bool :=
  match canonicalPath path with
  | .ok canonical => canonical = path
  | .error _ => false

/-- No entry is at or above the next one. -/
def strictlySorted {α : Type} [LT α] [DecidableLT α] : List α → Bool
  | [] => true
  | [_] => true
  | x :: y :: xs => x < y && strictlySorted (y :: xs)

/-- `validate_version_commit_object` -/
def validateVersionCommitObject (env : Env Id) (commit : VersionCommit Id) (id : Id)
    (what : String) : Except Error Unit :=
  if commit.parents.length > 2
      ∨ (commit.parents.length = 2 ∧ commit.parents[0]? = commit.parents[1]?) then
    .error (.invalid what s!"commit {hex id} has invalid parents")
  else
    match validateVersionIdentity "version commit author" commit.provenance.author with
    | .error e => .error e
    | .ok () =>
    match validateVersionIdentity "version commit committer" commit.provenance.committer with
    | .error e => .error e
    | .ok () =>
    match validateVersionRequestId commit.provenance.requestId with
    | .error e => .error e
    | .ok () =>
      if commit.paths.isEmpty || !strictlySorted commit.paths
          || !commit.paths.all isCanonical then
        .error (.invalid what s!"commit {hex id} has invalid changed paths")
      else if commit.id ≠ id ∨ env.commitDigest commit.toVersionCommitBody ≠ id then
        .error (.invalid what s!"commit {hex id} does not match its content hash")
      else .ok ()

/-! ## Verification -/

structure VersionVerifyReport where
  commits : Nat
  attestations : Nat
  nodes : Nat
  blobs : Nat
  deriving DecidableEq, Repr

namespace Store

variable (env : Env Id) (s : Store Id)

/-- A protection names a branch whose head has its quorum. -/
def verifyProtection (branch : String) (p : VersionBranchProtection) : Except Error Unit :=
  match s.branches.get? branch with
  | none => .error (.versioning
      s!"version branch protection {branch} references a missing branch")
  | some head =>
    match normalizeTrustedAttestationKeys env p.trustedAttestationKeys with
    | .error e => .error e
    | .ok trusted =>
      match validateRequiredAttestations trusted p.requiredAttestations with
      | .error e => .error e
      | .ok () =>
        if s.trustedAttestationCount head.commitId trusted < p.requiredAttestations then
          .error (.versioning (s!"protected version branch {branch} head {hex head.commitId} " ++
            s!"does not satisfy its {p.requiredAttestations}-signature quorum"))
        else .ok ()

def verifyBranch (name : String) (head : VersionRef Id) : Except Error Unit :=
  match s.commits.get? head.commitId with
  | none => .error (.versioning
      s!"version branch {name} references missing commit {hex head.commitId}")
  | some commit =>
    if head.tree ≠ commit.tree then
      .error (.versioning
        s!"version branch {name} tree does not match commit {hex head.commitId}")
    else .ok ()

def verifyTag (name : String) (tag : VersionTag Id) : Except Error Unit :=
  match s.commits.get? tag.commitId with
  | none => .error (.versioning
      s!"version tag {name} references missing commit {hex tag.commitId}")
  | some _ => .ok ()

def verifyReflog (id : Id) : Except Error Unit :=
  match s.commits.get? id with
  | none => .error (.versioning s!"version reflog references missing commit {hex id}")
  | some _ => .ok ()

/-- One step of the walk: a commit must be valid, unless it was pruned. -/
def verifyCommit (id : Id) : Except Error (List Id) :=
  match s.tryGetCommit id with
  | none =>
    if s.isPrunedCommit id then .ok []
    else .error (.notFound "version commit" (hex id))
  | some commit =>
    match validateVersionCommitObject env commit id "version repository verification" with
    | .error e => .error e
    | .ok () => .ok commit.parents

def verifyAttestation (commit : Id) (keyId : String) (a : VersionCommitAttestation) :
    Except Error Unit :=
  match s.commits.get? commit with
  | none => .error (.versioning
      s!"version commit attestation {keyId} references missing commit {hex commit}")
  | some _ => verifyVersionCommitAttestation env s.identity.id commit keyId a

def verifyBlob (reference : BlobRef Id) : Except Error Unit :=
  match getBlob env s.toObjects reference with
  | .error e => .error e
  | .ok none => .error (.versioning s!"missing reachable blob {hex reference.cid}")
  | .ok (some _) => .ok ()

/-- `verify`: protections, references, the walk over the history, attestations, and the
trees of the commits met. The stack pops its last entry first. -/
def verify : Except Error VersionVerifyReport := do
  checkAll (fun e => s.verifyProtection env e.1 e.2) s.protections.entries
  checkAll (fun e => s.verifyBranch e.1 e.2) s.branches.entries
  checkAll (fun e => s.verifyTag e.1 e.2) s.tags.entries
  checkAll s.verifyReflog s.reflogCommitIds
  let seen ← search s.commits (·.parents) (s.verifyCommit env) s.roots.reverse
  let commits := seen.reverse.filterMap s.tryGetCommit
  checkAll (fun e => s.verifyAttestation env (ofLex e.1).1 (ofLex e.1).2 e.2)
    s.attestations.entries
  let nodes ← env.markReachable s.nodes (commits.map (·.tree))
  let blobs ← env.markReachableBlobs s.nodes (commits.map (·.tree))
  checkAll (s.verifyBlob env) blobs
  return ⟨commits.length, s.attestations.entries.length, nodes.length, blobs.length⟩

end Store

/-! ## What it means to be verified -/

namespace Objects

variable {s : Objects Id}

/-- A commit that some reference reaches. -/
def Reachable (s : Objects Id) : Id → Prop := Reach s.parents (· ∈ s.roots)

/-- A root of the tree of one of the given commits. -/
def RootOf (s : Objects Id) (C : Id → Prop) (r : Id) : Prop :=
  ∃ c body, C c ∧ s.commits.get? c = some body ∧ body.tree = some r

/-- A node in the tree of one of the given commits. -/
def NodeOf (s : Objects Id) (C : Id → Prop) : Id → Prop := Reach s.children (s.RootOf C)

lemma NodeOf.mono {C D : Id → Prop} (h : ∀ c, C c → D c) {n : Id} (hn : s.NodeOf C n) :
    s.NodeOf D n :=
  Reach.mono hn (fun _ ⟨c, body, hc, hb, hr⟩ => ⟨c, body, h c hc, hb, hr⟩) (fun _ _ h => h)

lemma inTrees_eq {ids : List Id} {C : Id → Prop} (h : ∀ id, id ∈ ids ↔ C id) :
    InTrees s.nodes ((ids.filterMap s.tryGetCommit).map (·.tree)) = s.NodeOf C := by
  have hroots : (fun r => some r ∈ (ids.filterMap s.tryGetCommit).map (·.tree)) = s.RootOf C := by
    funext r
    unfold RootOf tryGetCommit
    simp only [List.mem_map, List.mem_filterMap, h, Option.map_eq_some_iff, eq_iff_iff]
    constructor
    · rintro ⟨c, ⟨id, hid, body, hb, rfl⟩, hr⟩
      exact ⟨id, body, hid, hb, hr⟩
    · rintro ⟨id, body, hid, hb, hr⟩
      exact ⟨_, ⟨id, hid, body, hb, rfl⟩, hr⟩
  rw [InTrees, hroots]
  rfl

end Objects

namespace Store

variable {env : Env Id} {s : Store Id}

/-- **A verified store**: what `verify` finds when it finds nothing wrong. -/
structure Verified (env : Env Id) (s : Store Id) : Prop where
  protection : ∀ b p, s.protections.get? b = some p → s.verifyProtection env b p = .ok ()
  branch : ∀ b h, s.branches.get? b = some h → s.verifyBranch b h = .ok ()
  tag : ∀ t v, s.tags.get? t = some v → s.verifyTag t v = .ok ()
  reflog : ∀ id ∈ s.reflogCommitIds, s.verifyReflog id = .ok ()
  commit : ∀ id, s.Reachable id → ∃ ys, s.verifyCommit env id = .ok ys
  attestation : ∀ k a, s.attestations.get? k = some a →
    s.verifyAttestation env (ofLex k).1 (ofLex k).2 a = .ok ()
  node : ∀ n, s.NodeOf s.Reachable n → (s.nodes.get? n).isSome
  blob : ∀ n node, s.NodeOf s.Reachable n → s.nodes.get? n = some node →
    ∀ r ∈ node.blobRefs, s.verifyBlob env r = .ok ()

lemma verifyCommit_ok {id : Id} {ys : List Id} (h : s.verifyCommit env id = .ok ys) :
    ys = s.parents id := by
  unfold verifyCommit Objects.tryGetCommit at h
  unfold Objects.parents follow
  cases hc : s.commits.get? id with
  | none =>
    simp only [hc, Option.map_none] at h
    split at h
    · cases h
      rfl
    · cases h
  | some body =>
    simp only [hc, Option.map_some] at h
    split at h
    · cases h
    · cases h
      rfl

variable {seen : List Id}

/-- The search from the references, and the trees of what it meets. -/
lemma mem_seen (h : search s.commits (·.parents) (s.verifyCommit env) s.roots.reverse = .ok seen)
    {id : Id} :
    id ∈ seen ↔ s.Reachable id := by
  rw [mem_search (fun _ _ => verifyCommit_ok) h]
  have : (fun x => x ∈ s.roots.reverse) = fun x => x ∈ s.roots := by
    funext x
    rw [List.mem_reverse]
  rw [this]
  exact Iff.rfl

/-- The trees that the walk collects are those of the reachable commits. -/
lemma inTrees_seen
    (h : search s.commits (·.parents) (s.verifyCommit env) s.roots.reverse = .ok seen) :
    InTrees s.nodes ((seen.reverse.filterMap s.tryGetCommit).map (·.tree)) =
      s.NodeOf s.Reachable :=
  Objects.inTrees_eq fun _ => List.mem_reverse.trans (mem_seen h)

/-- **`verify` succeeds just on the verified stores.** -/
theorem verify_ok_iff : (∃ r, s.verify env = .ok r) ↔ Verified env s := by
  constructor
  · rintro ⟨r, h⟩
    unfold verify at h
    simp only [↓then_eq_ok, bind_eq_ok, checkAll_eq_ok] at h
    obtain ⟨hprot, hbranch, htag, hlog, seen, hseen, hatt, nodes, hnodes, blobs, hblobs,
      hblob, -⟩ :=
      h
    refine ⟨fun b p hp => hprot (b, p) (mem_entries.mpr hp),
      fun b h hb => hbranch (b, h) (mem_entries.mpr hb),
      fun t v ht => htag (t, v) (mem_entries.mpr ht), hlog, ?_,
      fun k a ha => hatt (k, a) (mem_entries.mpr ha), ?_, ?_⟩
    · intro id hid
      refine (search_ok_iff (fun _ _ => verifyCommit_ok)).mp ⟨seen, hseen⟩ id ?_
      exact (mem_search (fun _ _ => verifyCommit_ok) hseen).mp ((mem_seen hseen).mpr hid)
    · intro n hn
      refine env.marks_iff.mp ⟨nodes, hnodes⟩ n ?_
      rw [inTrees_seen hseen]
      exact hn
    · intro n node hn hget r hr
      refine hblob r ((env.mem_blobs hblobs).mpr ⟨n, node, ?_, hget, hr⟩)
      rw [inTrees_seen hseen]
      exact hn
  · intro h
    obtain ⟨seen, hseen⟩ :
        ∃ seen, search s.commits (·.parents) (s.verifyCommit env) s.roots.reverse = .ok seen := by
      refine (search_ok_iff fun _ _ => verifyCommit_ok).mpr ?_
      intro x hx
      exact h.commit x (hx.mono (fun y hy => List.mem_reverse.mp hy) (fun _ _ hy => hy))
    obtain ⟨nodes, hnodes⟩ : ∃ nodes, env.markReachable s.nodes
        ((seen.reverse.filterMap s.tryGetCommit).map (·.tree)) = .ok nodes := by
      rw [env.marks_iff, inTrees_seen hseen]
      exact h.node
    obtain ⟨blobs, hblobs⟩ := env.marks_blobs hnodes
    unfold verify
    simp only [↓then_eq_ok, bind_eq_ok, checkAll_eq_ok]
    refine ⟨_, fun e he => h.protection e.1 e.2 (mem_entries.mp he),
      fun e he => h.branch e.1 e.2 (mem_entries.mp he),
      fun e he => h.tag e.1 e.2 (mem_entries.mp he), h.reflog, seen, hseen,
      fun e he => h.attestation e.1 e.2 (mem_entries.mp he), nodes, hnodes, blobs, hblobs, ?_, rfl⟩
    intro r hr
    obtain ⟨n, node, hn, hget, hr⟩ := (env.mem_blobs hblobs).mp hr
    rw [inTrees_seen hseen] at hn
    exact h.blob n node hn hget r hr

end Store

end SlateFs.Version
