import SlateFs.Control.Records
import SlateFs.Lib.Worklist

/-!
# Records of the version store

What `versioning.rs` keeps for the history of a volume, and the checks it makes on
names, identities, keys and signatures.

An object id is a SHA-256 digest in the source. Here ids are the values of any
ordered type, and digests and signatures are functions into it that the `Env`
supplies. A record is kept under the key that its own fields spell: the copies of
the key inside the records, and the checks that they agree, are left out, and so
is the version byte in front of every record.
-/

namespace SlateFs.Version

/-- Ids of commits, nodes and blobs, and how they are written. -/
class ObjectId (Id : Type) extends LinearOrder Id where
  /-- `hex::encode` -/
  hex : Id → String
  /-- `parse_commit_id` -/
  parseCommitId : String → Except Error Id

export ObjectId (hex parseCommitId)

instance ObjectId.lawfulBEq {Id : Type} [ObjectId Id] : LawfulBEq Id := inferInstance

/-! ## Prolly trees -/

structure BlobRef (Id : Type) where
  cid : Id
  len : Nat
  deriving DecidableEq

/-- A stored value: its bytes, or the blob that holds them. -/
inductive ValueRef (Id : Type) where
  | inline (bytes : Bytes)
  | blob (reference : BlobRef Id)
  deriving DecidableEq

/-- A node of a Prolly tree: entries of a leaf, or the children of an internal node. -/
inductive Node (Id : Type) where
  | leaf (entries : List (Bytes × ValueRef Id))
  | internal (entries : List (Bytes × Id))
  deriving DecidableEq

def Node.keys {Id : Type} : Node Id → List Bytes
  | leaf es => es.map (·.1)
  | internal es => es.map (·.1)

def Node.children {Id : Type} : Node Id → List Id
  | leaf _ => []
  | internal es => es.map (·.2)

def ValueRef.blobRef {Id : Type} : ValueRef Id → Option (BlobRef Id)
  | inline _ => none
  | blob r => some r

def Node.blobRefs {Id : Type} : Node Id → List (BlobRef Id)
  | leaf es => es.filterMap (fun e => e.2.blobRef)
  | internal _ => []

/-- `RootManifest`: the root of a tree, absent for the empty one. -/
abbrev Root (Id : Type) := Option Id

/-! ## Commits -/

inductive VersionCommitOrigin where
  | cli | admin | api
  deriving DecidableEq, Repr

structure VersionCommitProvenance where
  origin : VersionCommitOrigin
  author : String
  committer : String
  requestId : String
  deriving DecidableEq, Repr

/-- `VersionCommitBody`: what the id of a commit is the digest of. -/
structure VersionCommitBody (Id : Type) where
  parents : List Id
  tree : Root Id
  createdAt : Nat
  message : String
  paths : List String
  provenance : VersionCommitProvenance
  deriving DecidableEq

/-- `VersionCommit`: a commit as it is read back, with its id. -/
structure VersionCommit (Id : Type) extends VersionCommitBody Id where
  id : Id
  deriving DecidableEq

structure VersionCommitIdempotencyRecord (Id : Type) where
  commitId : Id
  requestFingerprint : Id
  deriving DecidableEq

/-! ## Attestations and protection -/

inductive VersionCommitAttestationAlgorithm where
  | ed25519
  deriving DecidableEq, Repr

/-- `VersionCommitAttestation`, kept under its commit and key id. -/
structure VersionCommitAttestation where
  algorithm : VersionCommitAttestationAlgorithm
  publicKey : Bytes
  signature : Bytes
  createdAt : Nat
  deriving DecidableEq, Repr

structure VersionTrustedAttestationKey where
  keyId : String
  algorithm : VersionCommitAttestationAlgorithm
  publicKey : Bytes
  deriving DecidableEq, Repr

/-- `VersionBranchProtection`, kept under its branch. -/
structure VersionBranchProtection where
  protectedAt : Nat
  allowedCommitters : List String
  allowedManagers : List String
  trustedAttestationKeys : List VersionTrustedAttestationKey
  requiredAttestations : Nat
  deriving DecidableEq, Repr

/-! ## References -/

structure VersionRef (Id : Type) where
  commitId : Id
  tree : Root Id
  deriving DecidableEq

structure VersionTag (Id : Type) where
  commitId : Id
  createdAt : Nat
  deriving DecidableEq

inductive VersionReflogAction where
  | create | commit | fastForward | merge | cherryPick | reset | delete | recover | sync
  deriving DecidableEq, Repr

/-- `VersionReflogRecord`, kept under its branch and sequence number. -/
structure VersionReflogRecord (Id : Type) where
  previous : Option Id
  commit : Option Id
  action : VersionReflogAction
  createdAt : Nat
  deriving DecidableEq

/-- The commits a record names. -/
def VersionReflogRecord.commitIds {Id : Type} (r : VersionReflogRecord Id) : List Id :=
  r.previous.toList ++ r.commit.toList

structure VersionRepositoryIdentity where
  id : String
  createdAt : Nat
  deriving DecidableEq, Repr

/-! ## What is left to libraries -/

/-- What an external signer signs. -/
structure VersionCommitAttestationStatement (Id : Type) where
  repositoryId : String
  commit : Id
  keyId : String
  algorithm : VersionCommitAttestationAlgorithm
  publicKey : Bytes
  createdAt : Nat
  deriving DecidableEq

/-- A node of some trees, as far as nodes are stored. -/
def InTrees {Id : Type} [ObjectId Id] (nodes : OrdMap Id (Node Id)) (trees : List (Root Id)) :
    Id → Prop :=
  Worklist.Reach (Worklist.follow nodes Node.children) fun r => some r ∈ trees

/-- Marking Prolly trees. -/
structure ProllyMarks (Id : Type) [ObjectId Id] where
  /-- `mark_reachable`: the nodes of some trees. -/
  markReachable : OrdMap Id (Node Id) → List (Root Id) → Except Error (List Id)
  /-- `mark_reachable_blobs` -/
  markReachableBlobs : OrdMap Id (Node Id) → List (Root Id) → Except Error (List (BlobRef Id))
  /-- Trees are marked just when no node is missing. -/
  marks_iff : ∀ {nodes trees}, (∃ ids, markReachable nodes trees = .ok ids) ↔
    ∀ id, InTrees nodes trees id → (nodes.get? id).isSome
  mem_marks : ∀ {nodes trees ids}, markReachable nodes trees = .ok ids →
    ∀ {id}, id ∈ ids ↔ InTrees nodes trees id
  marks_blobs : ∀ {nodes trees ids}, markReachable nodes trees = .ok ids →
    ∃ blobs, markReachableBlobs nodes trees = .ok blobs
  mem_blobs : ∀ {nodes trees blobs}, markReachableBlobs nodes trees = .ok blobs → ∀ {r}, r ∈ blobs ↔
    ∃ id node, InTrees nodes trees id ∧ nodes.get? id = some node ∧ r ∈ node.blobRefs

/-- The library's word for a node it cannot load (`prolly_error`). -/
def prollyError {Id : Type} [ObjectId Id] (id : Id) : Error := .versioning s!"missing node {hex id}"

/-- Digests, signatures and marks. -/
structure Env (Id : Type) [ObjectId Id] extends ProllyMarks Id where
  commitDigest : VersionCommitBody Id → Id
  nodeDigest : Node Id → Id
  blobDigest : Bytes → Id
  /-- What is wrong with the bytes of a public key (`VerifyingKey::from_bytes`). -/
  keyProblem : Bytes → Option String
  /-- `verify_strict` -/
  verifyStrict : Bytes → VersionCommitAttestationStatement Id → Bytes → Bool

/-- The digests are taken to be injective. -/
structure Env.Injective {Id : Type} [ObjectId Id] (env : Env Id) : Prop where
  commit : Function.Injective env.commitDigest
  node : Function.Injective env.nodeDigest
  blob : Function.Injective env.blobDigest

/-! ## Checks on names and identities -/

def hexDigit (c : Char) : Bool :=
  c.isDigit || ('a' ≤ c && c ≤ 'f') || ('A' ≤ c && c ≤ 'F')

/-- `validate_version_named_ref` -/
def validateVersionNamedRef (what name : String) : Except Error Unit :=
  if name.isEmpty || name.utf8ByteSize > 128 then
    .error (.invalid what "must contain 1 to 128 ASCII characters")
  else if name = "." || name = ".."
      || (name.utf8ByteSize = 64 && name.toList.all hexDigit)
      || !name.toList.all (fun c => c.isAlphanum || c = '.' || c = '_' || c = '-') then
    .error (.invalid what
      "use only ASCII letters, digits, '.', '_', or '-' and do not use a SHA-256-shaped name")
  else .ok ()

def validateVersionBranchName (name : String) : Except Error Unit :=
  validateVersionNamedRef "version branch" name

def validateVersionTagName (name : String) : Except Error Unit :=
  validateVersionNamedRef "version tag" name

def validateVersionAttestationKeyId (keyId : String) : Except Error Unit :=
  validateVersionNamedRef "version commit attestation key ID" keyId

/-- `char::is_control`: the general category `Cc`. -/
def isControl (c : Char) : Bool := c.toNat < 32 || (127 ≤ c.toNat && c.toNat < 160)

def validateVersionIdentity (what value : String) : Except Error Unit :=
  if value.isEmpty || value.utf8ByteSize > 256 then
    .error (.invalid what "must contain 1 to 256 UTF-8 bytes")
  else if value.toList.any isControl then
    .error (.invalid what "must not contain control characters")
  else .ok ()

def validateVersionRequestId (value : String) : Except Error Unit :=
  if value.isEmpty || value.utf8ByteSize > 128 || !value.toList.all (fun c => c.toNat < 128) then
    .error (.invalid "version commit request id" "must contain 1 to 128 ASCII characters")
  else if value.toList.any isControl then
    .error (.invalid "version commit request id" "must not contain control characters")
  else .ok ()

/-- A UUID in lowercase hyphenated form: the only text `Uuid::parse_str` accepts and
`to_string` gives back. -/
def canonicalUuid (id : String) : Bool :=
  id.toList.length = 36 &&
    (id.toList.zipIdx.all fun (c, i) =>
      if i = 8 || i = 13 || i = 18 || i = 23 then c = '-'
      else c.isDigit || ('a' ≤ c && c ≤ 'f'))

/-- `validate_version_repository_id`; what the parser says of another text is not kept. -/
def validateVersionRepositoryId (id : String) : Except Error Unit :=
  if canonicalUuid id then .ok ()
  else .error (.invalid "version repository ID"
    "must use canonical lowercase hyphenated UUID form")

def validateVersionRepositoryIdentity (identity : VersionRepositoryIdentity) :
    Except Error Unit :=
  match validateVersionRepositoryId identity.id with
  | .error e => .error e
  | .ok () =>
    if identity.createdAt = 0 then
      .error (.invalid "version repository identity" "creation timestamp must be nonzero")
    else .ok ()

/-! ## Checks on keys and signatures -/

section

variable {Id : Type} [ObjectId Id] (env : Env Id)

/-- `validate_version_attestation` -/
def validateVersionAttestation (keyId : String) (a : VersionCommitAttestation) :
    Except Error Unit :=
  match validateVersionAttestationKeyId keyId with
  | .error e => .error e
  | .ok () =>
    if a.publicKey.length ≠ 32 then
      .error (.invalid "version commit attestation public key"
        "Ed25519 public keys must contain exactly 32 bytes")
    else if a.signature.length ≠ 64 then
      .error (.invalid "version commit attestation signature"
        "Ed25519 signatures must contain exactly 64 bytes")
    else .ok ()

/-- `verify_version_commit_attestation` -/
def verifyVersionCommitAttestation (repositoryId : String) (commit : Id) (keyId : String)
    (a : VersionCommitAttestation) : Except Error Unit :=
  match validateVersionAttestation keyId a with
  | .error e => .error e
  | .ok () =>
    match env.keyProblem a.publicKey with
    | some problem => .error (.invalid "version commit attestation public key" problem)
    | none =>
      match validateVersionRepositoryId repositoryId with
      | .error e => .error e
      | .ok () =>
        if env.verifyStrict a.publicKey
            ⟨repositoryId, commit, keyId, .ed25519, a.publicKey, a.createdAt⟩
            a.signature then .ok ()
        else .error (.invalid "version commit attestation" "signature verification failed")

/-- `validate_version_trusted_attestation_key` -/
def validateVersionTrustedAttestationKey (key : VersionTrustedAttestationKey) :
    Except Error Unit :=
  match validateVersionAttestationKeyId key.keyId with
  | .error e => .error e
  | .ok () =>
    if key.publicKey.length ≠ 32 then
      .error (.invalid "version trusted attestation public key"
        "Ed25519 public keys must contain exactly 32 bytes")
    else
      match env.keyProblem key.publicKey with
      | some problem => .error (.invalid "version trusted attestation public key" problem)
      | none => .ok ()

/-- The first failing check in a loop ends it. -/
def checkAll {α : Type} (check : α → Except Error Unit) : List α → Except Error Unit
  | [] => .ok ()
  | x :: xs =>
    match check x with
    | .error e => .error e
    | .ok () => checkAll check xs

/-- Rust's `dedup`: drop an entry equal to the one before it. -/
def dedup {α : Type} [DecidableEq α] : List α → List α
  | [] => []
  | [x] => [x]
  | x :: y :: xs => if x = y then dedup (y :: xs) else x :: dedup (y :: xs)

/-- The order of trusted keys: by id, then by public key. -/
def VersionTrustedAttestationKey.le (a b : VersionTrustedAttestationKey) : Bool :=
  a.keyId < b.keyId || (a.keyId = b.keyId && a.publicKey ≤ b.publicKey)

/-- No key id stands for two keys; the list is sorted. -/
def distinctKeys : List VersionTrustedAttestationKey → Except Error Unit
  | [] => .ok ()
  | [_] => .ok ()
  | a :: b :: keys =>
    if a.keyId = b.keyId ∧ a ≠ b then
      .error (.invalid "version branch trusted attestation keys"
        s!"key ID {a.keyId} is assigned to multiple public keys")
    else distinctKeys (b :: keys)

/-- `normalize_trusted_attestation_keys` -/
def normalizeTrustedAttestationKeys (keys : List VersionTrustedAttestationKey) :
    Except Error (List VersionTrustedAttestationKey) :=
  if keys.length > 64 then
    .error (.invalid "version branch trusted attestation keys" "must contain at most 64 keys")
  else
    match checkAll (validateVersionTrustedAttestationKey env) keys with
    | .error e => .error e
    | .ok () =>
      let sorted := keys.mergeSort VersionTrustedAttestationKey.le
      match distinctKeys sorted with
      | .error e => .error e
      | .ok () => .ok (dedup sorted)

/-- `validate_required_attestations` -/
def validateRequiredAttestations (keys : List VersionTrustedAttestationKey) (required : Nat) :
    Except Error Unit :=
  if keys.isEmpty then
    if required ≠ 0 then
      .error (.invalid "version branch attestation quorum"
        "must be zero when no trusted attestation keys are configured")
    else .ok ()
  else if required = 0 ∨ required > keys.length then
    .error (.invalid "version branch attestation quorum"
      s!"must be between 1 and the {keys.length} configured trusted keys")
  else .ok ()

end

@[simp] lemma checkAll_eq_ok {α : Type} {check : α → Except Error Unit} {xs : List α} :
    checkAll check xs = .ok () ↔ ∀ x ∈ xs, check x = .ok () := by
  induction xs with
  | nil => simp [checkAll]
  | cons x xs ih =>
    rw [checkAll]
    cases hx : check x with
    | error e => simp [hx]
    | ok u => simp [hx, ih]

end SlateFs.Version
