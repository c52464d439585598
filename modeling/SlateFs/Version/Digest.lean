import SlateFs.Version.Gc
import SlateFs.Lib.Encode

/-!
# Injective digests

A digest that forgets nothing: the encoding of the value itself. It meets the
assumption that the digests are injective, and concrete histories can be computed
with it.
-/

namespace SlateFs.Version

open OrdMap Worklist

/-! ## Marks by search -/

section

variable {Id : Type} [ObjectId Id] {nodes : OrdMap Id (Node Id)} {trees : List (Root Id)} {id : Id}

def expandNode (nodes : OrdMap Id (Node Id)) (id : Id) : Except Error (List Id) :=
  match nodes.get? id with
  | none => .error (prollyError id)
  | some node => .ok node.children

lemma expandNode_ok {ys : List Id} (h : expandNode nodes id = .ok ys) :
    ys = follow nodes Node.children id := by
  unfold expandNode at h
  unfold follow
  split at h
  · cases h
  rename_i node hn
  simp only [hn]
  cases h
  rfl

lemma expandNode_isOk : (∃ ys, expandNode nodes id = .ok ys) ↔ (nodes.get? id).isSome := by
  unfold expandNode
  cases nodes.get? id <;> simp

lemma inTrees_filterMap :
    Reach (follow nodes Node.children) (· ∈ trees.filterMap fun r => r) = InTrees nodes trees := by
  unfold InTrees
  congr 1
  funext r
  simp

/-- Trees are marked from a worklist. -/
def ProllyMarks.search : ProllyMarks Id where
  markReachable nodes trees :=
    Worklist.search nodes Node.children (expandNode nodes) (trees.filterMap fun r => r)
  markReachableBlobs nodes trees :=
    (Worklist.search nodes Node.children (expandNode nodes) (trees.filterMap fun r => r)).map
      fun ids => ids.flatMap fun id => (nodes.get? id).elim [] Node.blobRefs
  marks_iff := by
    intro nodes trees
    rw [search_ok_iff (fun _ _ => expandNode_ok), inTrees_filterMap]
    exact forall_congr' fun x => imp_congr_right fun _ => expandNode_isOk
  mem_marks h := by
    intro id
    rw [mem_search (fun _ _ => expandNode_ok) h, inTrees_filterMap]
  marks_blobs h := ⟨_, by rw [h]; rfl⟩
  mem_blobs := by
    intro nodes trees blobs h r
    generalize hids : Worklist.search nodes Node.children (expandNode nodes) _ = found at h
    cases found with
    | error e => cases h
    | ok ids =>
      cases h
      simp only [List.mem_flatMap, mem_search (fun _ _ => expandNode_ok) hids, inTrees_filterMap]
      refine exists_congr fun id => ?_
      cases nodes.get? id <;> simp

end

/-- An id that is the encoding of what it names. -/
abbrev Digest := List Nat

instance : ObjectId Digest where
  hex d := String.ofList (d.flatMap fun n => Nat.toDigits 16 n ++ ['-'])
  parseCommitId _ := .error (.invalid "version commit" "expected a 64-character SHA-256 id")

namespace Digest

def codeId : Code Digest := .list .nat

def codeBlobRef : Code (BlobRef Digest) :=
  (codeId.prod .nat).comap (fun r => (r.cid, r.len)) fun a b h => by
    cases a; cases b; simpa using h

def codeValueRef : Code (ValueRef Digest) :=
  (Code.bytes.sum codeBlobRef).comap
    (fun | .inline bytes => .inl bytes | .blob r => .inr r)
    fun a b h => by cases a <;> cases b <;> simp_all

def codeNode : Code (Node Digest) :=
  ((Code.list (Code.bytes.prod codeValueRef)).sum (Code.list (Code.bytes.prod codeId))).comap
    (fun | .leaf es => .inl es | .internal es => .inr es)
    fun a b h => by cases a <;> cases b <;> simp_all

def codeOrigin : Code VersionCommitOrigin :=
  Code.nat.comap (fun | .cli => 0 | .admin => 1 | .api => 2)
    fun a b h => by cases a <;> cases b <;> simp_all

def codeProvenance : Code VersionCommitProvenance :=
  (codeOrigin.prod (Code.string.prod (Code.string.prod Code.string))).comap
    (fun p => (p.origin, p.author, p.committer, p.requestId)) fun a b h => by
      cases a; cases b; simpa using h

def codeBody : Code (VersionCommitBody Digest) :=
  ((Code.list codeId).prod ((Code.option codeId).prod (Code.nat.prod (Code.string.prod
    ((Code.list Code.string).prod codeProvenance))))).comap
    (fun b => (b.parents, b.tree, b.createdAt, b.message, b.paths, b.provenance)) fun a b h => by
      cases a; cases b; simpa using h

/-- Digests by encoding; every key is in order and every signature verifies. -/
def env : Env Digest where
  toProllyMarks := .search
  commitDigest := codeBody.enc
  nodeDigest := codeNode.enc
  blobDigest := Code.bytes.enc
  keyProblem _ := none
  verifyStrict _ _ _ := true

lemma env_injective : env.Injective :=
  ⟨codeBody.injective, codeNode.injective, Code.bytes.injective⟩

/-! ## Small repositories -/

def who : VersionCommitProvenance := ⟨.cli, "a", "a", "r"⟩

/-- A tree that holds one chunk of one byte. -/
def leafOf (b : UInt8) : Node Digest := .leaf [([b], .blob ⟨env.blobDigest [b], 1⟩)]

def commitOf (parents : List Digest) (b : UInt8) (createdAt : Nat) : VersionCommitBody Digest :=
  ⟨parents, some (env.nodeDigest (leafOf b)), createdAt, "", ["/f"], who⟩

def idOf (body : VersionCommitBody Digest) : Digest := env.commitDigest body

/-- A store with some one-byte trees, commits on them, and references. -/
def storeOf (chunks : List UInt8) (commits : List (VersionCommitBody Digest))
    (branches : List (String × VersionCommitBody Digest))
    (reflogs : List ((String ×ₗ Nat) × VersionReflogRecord Digest))
    (tags : List (String × VersionTag Digest)) : Store Digest where
  attestations := ∅
  blobs := insertAll ∅ (chunks.map fun b => (env.blobDigest [b], [b]))
  commits := insertAll ∅ (commits.map fun c => (idOf c, c))
  nodes := insertAll ∅ (chunks.map fun b => (env.nodeDigest (leafOf b), leafOf b))
  prunedCommits := ∅
  branches := insertAll ∅ (branches.map fun e => (e.1, ⟨idOf e.2, e.2.tree⟩))
  reflogs := insertAll ∅ reflogs
  tags := insertAll ∅ tags
  idempotency := ∅
  protections := ∅
  identity := ⟨"00000000-0000-4000-8000-000000000000", 1⟩

end Digest

/-- The store after a collection. -/
def collected {Id : Type} [ObjectId Id]
    (r : Option (Except Error (VersionGcReport × Store Id))) : Option (Store Id) :=
  match r with
  | some (.ok (_, s)) => some s
  | _ => none

lemma exists_of_collected {Id : Type} [ObjectId Id]
    {r : Option (Except Error (VersionGcReport × Store Id))} (h : (collected r).isSome) :
    ∃ p, r = some (.ok p) := by
  unfold collected at h
  split at h
  · exact ⟨_, rfl⟩
  · cases h

end SlateFs.Version
