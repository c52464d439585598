import SlateFs.Version.Read
import SlateFs.Version.Picked

/-!
# Importing a repository

`import_bundle` checks a bundle as the exporter did, opens a destination under the
identity of the source, refuses one that holds anything, and puts all records in one
batch. A repository that then fails verification is taken out again; so the import is
a function to the new store, or an error.

What arrives is the same set of records, and references name the same commits. But
files are cut into chunks of the source's size, and the destination reads with its own.
-/

namespace SlateFs.Version

section

variable {Id : Type} [ObjectId Id] {env : Env Id}

/-- The settings of a repository that records are copied into: also the bytes that a set of
records and a reference take. -/
structure SyncSettings (Id : Type) [ObjectId Id] extends Settings Id where
  objectsBytes : Objects Id → Nat
  refBytes : String → VersionRef Id → Nat

/-- Without a limit, bytes do not matter. -/
def SyncSettings.unlimited (id : Id) : SyncSettings Id :=
  { Settings.unlimited id with
    objectsBytes := fun _ => 0
    refBytes := fun _ _ => 0 }

def Objects.empty : Objects Id := ⟨∅, ∅, ∅, ∅, ∅, ∅, ∅, ∅⟩

/-- A repository that holds nothing but its identity. -/
def Store.empty (identity : VersionRepositoryIdentity) : Store Id :=
  ⟨.empty, ∅, ∅, identity⟩

/-- Whether a repository holds nothing but its identity. -/
def Store.isEmpty (s : Store Id) : Bool :=
  s.attestations.entries.isEmpty && s.blobs.entries.isEmpty && s.commits.entries.isEmpty &&
    s.nodes.entries.isEmpty && s.prunedCommits.entries.isEmpty && s.branches.entries.isEmpty &&
    s.reflogs.entries.isEmpty && s.tags.entries.isEmpty && s.idempotency.entries.isEmpty &&
    s.protections.entries.isEmpty

/-- `open_with_identity`: a volume without a repository adopts the identity. -/
def openWithIdentity (identity : VersionRepositoryIdentity) :
    Option (Store Id) → Except Error (Store Id)
  | none => do
      validateVersionRepositoryIdentity identity
      return .empty identity
  | some s => do
      validateVersionRepositoryIdentity identity
      refuseIf (s.identity ≠ identity) (.invalid "version repository identity"
        s!"repository is {s.identity.id}, requested {identity.id}")
      return s

/-- The limit on the bytes that an import needs. -/
def SyncSettings.importQuota (cfg : SyncSettings Id) (required : Nat) : Except Error Unit :=
  match cfg.maxBytes with
  | none => .ok ()
  | some maxBytes => refuseIf (required > maxBytes) (.versioning
      s!"version history quota exceeded: {required} bytes required, {maxBytes} bytes allowed")

/-- `import_bundle` -/
def importBundle (env : Env Id) (cfg : SyncSettings Id) (identity : VersionRepositoryIdentity)
    (o : Objects Id) (destination : Option (Store Id)) :
    Except Error (VersionRepositoryBundleReport × Store Id) := do
  let report ← validateRepositoryBundlePayload env identity o
  let d ← openWithIdentity identity destination
  refuseIf (!d.isEmpty) (.invalid "version repository bundle import"
    "destination repository is not empty")
  cfg.importQuota (cfg.storedBytes d + cfg.objectsBytes o)
  let _ ← Store.verify env { d with toObjects := o }
  return (report, { d with toObjects := o })

/-! ## What an import brings -/

variable {P : Prolly env} {cfg : SyncSettings Id} {identity : VersionRepositoryIdentity}
  {s d : Store Id} {o : Objects Id} {destination : Option (Store Id)}
  {report report' : VersionRepositoryBundleReport}

/-- **An import brings all records and nothing else**, and the result is verified. -/
theorem importBundle_ok (h : importBundle env cfg identity o destination = .ok (report, d)) :
    d.toObjects = o ∧ Portable env identity o ∧ Store.Verified env d := by
  unfold importBundle at h
  simp only [↓then_eq_ok, bind_eq_ok] at h
  obtain ⟨r, hr, opened, -, -, -, v, hv, ⟨⟩⟩ := h
  exact ⟨rfl, validate_ok_iff.mp ⟨_, hr⟩, Store.verify_ok_iff.mp ⟨v, hv⟩⟩

lemma exportBundle_ok (h : s.exportBundle env = .ok (o, report)) : o = s.toObjects := by
  unfold Store.exportBundle at h
  simp only [bind_eq_ok] at h
  obtain ⟨v, -, p, -, ⟨⟩⟩ := h
  rfl

lemma readFileRange_congr {chunkSize : Nat} (h : d.toObjects = s.toObjects) :
    readFileRange P chunkSize d = readFileRange P chunkSize s := by
  obtain ⟨o, i, p, id⟩ := d
  obtain ⟨o', i', p', id'⟩ := s
  cases h
  rfl

/-- References of two repositories name the same commits. -/
structure SameRefs (s d : Store Id) : Prop where
  branches : ∀ name, d.branches.get? name = s.branches.get? name
  tags : ∀ name, d.tags.get? name = s.tags.get? name
  reflogs : ∀ entry, d.reflogs.get? entry = s.reflogs.get? entry

/-- Every range of every file reads the same in two repositories, each with a chunk size. -/
def SameReads (P : Prolly env) (s : Store Id) (cs : Nat) (d : Store Id) (cd : Nat) : Prop :=
  ∀ reference path offset length,
    readFileRange P cd d reference path offset length =
      readFileRange P cs s reference path offset length

/-- The chunk sizes are equal, or no file of a commit is longer than a chunk of either. -/
def FilesFit (P : Prolly env) (s : Store Id) (cs cd : Nat) : Prop :=
  cs = cd ∨ ∀ reference commit, s.resolveCommit reference = .ok commit →
    FilesShort P s.toObjects commit.tree cs cd

/-- Every file is cut into chunks of a size, as captures cut it. -/
def LaidOut (P : Prolly env) (s : Store Id) (chunkSize : Nat) : Prop :=
  ∀ reference commit, s.resolveCommit reference = .ok commit →
    TreeLaid P s.toObjects commit.tree chunkSize

/-- **Files that fit read the same.** -/
theorem sameReads_of_fit {cs cd : Nat} (h : FilesFit P s cs cd) : SameReads P s cs s cd := by
  intro reference path offset length
  rcases h with rfl | h
  · rfl
  unfold readFileRange
  cases hr : s.resolveCommit reference with
  | error e => rfl
  | ok commit =>
    show readTree P cd s.toObjects commit.tree path offset length =
      readTree P cs s.toObjects commit.tree path offset length
    rw [readTree_short (h reference commit hr)]

/-- **Captured files that read the same fit.** -/
theorem fit_of_sameReads {cs cd : Nat} (hlaid : LaidOut P s cs) (h : SameReads P s cs s cd) :
    FilesFit P s cs cd := by
  by_cases hcs : cs = cd
  · exact .inl hcs
  refine .inr fun reference commit hr => ?_
  refine short_of_readTree (hlaid reference commit hr) hcs ?_
  funext path offset length
  have hread := h reference path offset length
  unfold readFileRange at hread
  rw [hr] at hread
  exact hread

/-- **An import keeps every reference, and keeps what files read as just where they fit.** The
source is any repository that can be exported; the files must fit if they are laid out as
captures lay them out. -/
theorem import_reads_iff (hexport : s.exportBundle env = .ok (o, report))
    (himport : importBundle env cfg s.identity o destination = .ok (report', d)) (cs cd : Nat) :
    (FilesFit P s cs cd → SameRefs s d ∧ SameReads P s cs d cd) ∧
      (LaidOut P s cs → (SameRefs s d ∧ SameReads P s cs d cd ↔ FilesFit P s cs cd)) := by
  have hobjects : d.toObjects = s.toObjects :=
    (importBundle_ok himport).1.trans (exportBundle_ok hexport)
  have hreads : SameReads P s cs d cd ↔ SameReads P s cs s cd := by
    unfold SameReads
    rw [readFileRange_congr hobjects]
  have hrefs : SameRefs s d := by
    refine ⟨fun name => ?_, fun name => ?_, fun entry => ?_⟩
    · rw [hobjects]
    · rw [hobjects]
    · rw [hobjects]
  rw [hreads]
  exact ⟨fun h => ⟨hrefs, sameReads_of_fit h⟩,
    fun hlaid => ⟨fun h => fit_of_sameReads hlaid h.2, fun h => ⟨hrefs, sameReads_of_fit h⟩⟩⟩

end

/-! ## A file of two chunks -/

namespace Digest

/-- The repository after a first commit of a file of two bytes, in chunks of one byte. -/
def committed : Store Digest :=
  (commitPathsInner (.flat env) (.unlimited []) 0 liveTwo commitFile emptyStore).2

/-- The repository that an import of it makes. -/
def imported : Store Digest :=
  { Store.empty committed.identity with toObjects := committed.toObjects }

def bundleReport : VersionRepositoryBundleReport := ⟨1, 0, 0, 1, 2, 1, 0, 1⟩

lemma committed_exports :
    committed.exportBundle env = .ok (committed.toObjects, bundleReport) := by
  obtain ⟨v, hv⟩ : ∃ v, committed.verify env = .ok v := by
    refine ⟨⟨1, 0, 1, 2⟩, by decide +kernel⟩
  have hp : validateRepositoryBundlePayload env committed.identity committed.toObjects =
      .ok bundleReport := by decide +kernel
  unfold Store.exportBundle
  rw [hv, hp]
  rfl

lemma committed_imports :
    importBundle env (.unlimited []) committed.identity committed.toObjects none =
      .ok (bundleReport, imported) := by
  have hp : validateRepositoryBundlePayload env committed.identity committed.toObjects =
      .ok bundleReport := by decide +kernel
  obtain ⟨v, hv⟩ : ∃ v, imported.verify env = .ok v := by
    refine ⟨⟨1, 0, 1, 2⟩, by decide +kernel⟩
  unfold importBundle
  rw [hp]
  have hopen : openWithIdentity committed.identity none =
      .ok (Store.empty committed.identity : Store Digest) := by
    have hid : validateVersionRepositoryIdentity committed.identity = .ok () := by decide +kernel
    unfold openWithIdentity
    rw [hid]
    rfl
  rw [hopen]
  show (Store.verify env imported >>= _) = _
  rw [hv]
  rfl

end Digest

open Digest in
/-- Imported into a volume with chunks of two bytes, the file can no longer be read. -/
theorem import_cuts_file_short :
    committed.exportBundle env = .ok (committed.toObjects, bundleReport) ∧
    importBundle env (.unlimited []) committed.identity committed.toObjects none =
      .ok (bundleReport, imported) ∧
    readFileRange (.flat env) 1 committed "main" "/f" 0 2 = .ok ⟨0, 2, [5, 6], true⟩ ∧
    readFileRange (.flat env) 2 imported "main" "/f" 0 2 = .error (contentsShorter "/f") :=
  ⟨committed_exports, committed_imports, by decide +kernel, by decide +kernel⟩

open Digest in
theorem import_same_chunks :
    SameRefs committed imported ∧ SameReads (.flat env) committed 1 imported 1 :=
  (import_reads_iff committed_exports committed_imports 1 1).1 (.inl rfl)

end SlateFs.Version
