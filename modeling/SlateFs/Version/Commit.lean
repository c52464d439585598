import SlateFs.Version.Digest
import SlateFs.Version.Flat
import SlateFs.Version.Live
import SlateFs.Version.Refs

/-!
# Committing paths

A commit (`commit_paths_inner`) replaces what a branch has inside the selected paths by
what the live tree has there. The keys of the old tree inside the paths are marked for
deletion first, and what is captured is written over them.

Chunks and nodes are stored before the commit is published, so an operation that fails
on the way leaves them behind; such operations return their result and the store.
-/

namespace SlateFs.Version

open OrdMap

section

variable {Id : Type} [ObjectId Id] {env : Env Id}

/-! ## Operations that store objects on the way -/

/-- Go on with the value of a check, or stop with its error. -/
def attempt {α β : Type} (s : Store Id) (x : Except Error α)
    (next : α → Except Error β × Store Id) : Except Error β × Store Id :=
  match x with
  | .error e => (.error e, s)
  | .ok a => next a

variable {s s' : Store Id} {cfg : Settings Id} {now : Nat} {P : Prolly env} {nodes : List (Node Id)}

/-- A check that fails ends the operation, and the store is as it is by then. -/
lemma attempt_or {α β : Type} {x : Except Error α} {next : α → Except Error β × Store Id}
    {r : Except Error β} {A B : Prop} (h : attempt s x next = (r, s'))
    (hs : ∀ e, r = .error e → s' = s → A) (hgo : ∀ a, x = .ok a → next a = (r, s') → A ∨ B) :
    A ∨ B := by
  cases x with
  | error e =>
    cases h
    exact .inl (hs e rfl rfl)
  | ok a => exact hgo a rfl h

namespace Store

/-- `put_blob` for each of some chunks -/
def putBlobs (env : Env Id) (chunks : List Bytes) (s : Store Id) : Store Id :=
  { s with blobs := s.blobs.insertAll (chunks.map fun b => (env.blobDigest b, b)) }

/-- Store the nodes of a tree. -/
def putNodes (env : Env Id) (nodes : List (Node Id)) (s : Store Id) : Store Id :=
  { s with nodes := s.nodes.insertAll (nodes.map fun n => (env.nodeDigest n, n)) }

end Store

/-- Only chunks and nodes were stored, under their digests. -/
def Puts (env : Env Id) (s s' : Store Id) : Prop :=
  ∃ chunks nodes, s' = (s.putBlobs env chunks).putNodes env nodes

lemma Puts.refl (s : Store Id) : Puts env s s := ⟨[], [], rfl⟩

lemma Puts.blobs (chunks : List Bytes) (s : Store Id) : Puts env s (s.putBlobs env chunks) :=
  ⟨chunks, [], rfl⟩

namespace Store

/-- The head of a branch to publish to; only `main` need not exist. -/
def targetBranch (s : Store Id) (branch : String) : Except Error (Option (VersionRef Id)) := do
  refuseIf (branch ≠ "main" ∧ (s.branches.get? branch).isNone) (.notFound "version branch" branch)
  return s.branches.get? branch

end Store

/-- The tree of a head, empty where there is none. -/
def Prolly.contents (P : Prolly env) (s : Store Id) :
    Option (VersionRef Id) → Except Error (Contents Id)
  | none => .ok ∅
  | some head => P.load s.nodes.get? head.tree

/-- `VersionCommitProvenance::new` lets nothing else through. -/
structure VersionCommitProvenance.Checked (p : VersionCommitProvenance) : Prop where
  author : validateVersionIdentity "version commit author" p.author = .ok ()
  committer : validateVersionIdentity "version commit committer" p.committer = .ok ()
  requestId : validateVersionRequestId p.requestId = .ok ()

/-- A provenance that was checked when it was made. -/
abbrev Provenance := { p : VersionCommitProvenance // p.Checked }

/-- The intent of a request with an idempotency key. -/
def idempotencyIntent (cfg : Settings Id) (what : String) (key : Option String)
    (request : VersionRequestFingerprint Id) :
    Except Error (Option (VersionCommitIdempotencyIntent Id)) :=
  match key with
  | none => .ok none
  | some key => do
      refuseIf key.isEmpty (.invalid what "must not be empty")
      refuseIf (key.utf8ByteSize > 256) (.invalid what "must not exceed 256 UTF-8 bytes")
      return some ⟨cfg.keyHash key, cfg.requestFingerprint request⟩

/-- A body with its digest. -/
def VersionCommit.ofBody (env : Env Id) (body : VersionCommitBody Id) : VersionCommit Id :=
  ⟨body, env.commitDigest body⟩

/-! ## The operation -/

structure VersionCommitOperation where
  branch : String
  paths : List String
  message : String
  provenance : Provenance
  idempotencyKey : Option String

structure VersionCommitResult (Id : Type) where
  commit : VersionCommit Id
  replayed : Bool

/-- The keys to write: the old ones inside the paths are dropped, the captured ones set. -/
def commitChanges (env : Env Id) (base : Contents Id) (canonical : List String)
    (captures : List Capture) : OrdMap TreeKey (Option (TreeValue Id)) :=
  insertAll (insertAll ∅ ((base.scan (versionKeyMatchesAnyPath · canonical)).map fun e =>
    (e.1, none))) (captures.map fun c => (c.key, some (c.value env)))

def committedTree (P : Prolly env) (base : Contents Id) (canonical : List String)
    (captures : List Capture) : Contents Id :=
  P.batch base ((commitChanges env base canonical captures).entries.map fun e => .of e.1 e.2)

/-- Publish a commit; the answer says whether it had been published before. -/
def publish (cfg : Settings Id) (now : Nat) (request : VersionPublishRequest Id) (s : Store Id) :
    Except Error (VersionCommitResult Id) × Store Id :=
  attempt s (s.publishCommit cfg now request) fun
    | (.published, s') => (.ok ⟨request.commit, false⟩, s')
    | (.replayed commit, s') => (.ok ⟨commit, true⟩, s')

/-- `commit_paths_inner` -/
def commitPathsInner (P : Prolly env) (cfg : Settings Id) (now : Nat) (live : Live)
    (op : VersionCommitOperation) (s : Store Id) :
    Except Error (VersionCommitResult Id) × Store Id :=
  attempt s (validateVersionBranchName op.branch) fun _ =>
  attempt s (canonicalizePathSet op.paths) fun canonical =>
  attempt s (idempotencyIntent cfg "version commit idempotency key" op.idempotencyKey
    (.commit op.branch op.message canonical op.provenance.1.author op.provenance.1.committer))
    fun intent =>
  attempt s (s.targetBranch op.branch) fun head =>
  attempt s (s.replay intent) fun
  | some commit => (.ok ⟨commit, true⟩, s)
  | none =>
    attempt s (P.contents s head) fun base =>
    let captured := live.capturePaths canonical
    let s₁ := s.putBlobs env (captured.1.filterMap Capture.blob)
    attempt s₁ captured.2 fun _ =>
    let tree := committedTree P base canonical captured.1
    let s₂ := s₁.putNodes env (P.nodes tree)
    attempt s₂ (refuseIf (P.root tree = head.bind (·.tree)) (.versioning
      (", ".intercalate canonical ++ " has no changes to commit"))) fun _ =>
    publish cfg now
      { branch := op.branch
        expected := head.map (·.commitId)
        requiredRef := none
        commit := .ofBody env
          { parents := (head.map (·.commitId)).toList
            tree := P.root tree
            createdAt := now
            message := op.message
            paths := canonical
            provenance := op.provenance.1 }
        idempotency := intent
        reflogAction := .commit } s₂

/-! ## What a commit does -/

variable {r : Except Error (VersionCommitResult Id)}

lemma publish_cases {request : VersionPublishRequest Id}
    (h : publish cfg now request s = (r, s')) :
    (s' = s ∧ ∀ result, r = .ok result → result.replayed = true) ∨
      s.publishCommit cfg now request = .ok (.published, s') ∧ r = .ok ⟨request.commit, false⟩ := by
  refine attempt_or h (fun _ hr hs => ⟨hs, hr ▸ nofun⟩) fun ⟨outcome, s₁⟩ hp h => ?_
  cases outcome with
  | published =>
    cases h
    exact .inr ⟨hp, rfl⟩
  | replayed commit =>
    cases h
    refine .inl ⟨?_, fun result h => by cases h; rfl⟩
    -- a replay stores nothing
    unfold Store.publishCommit at hp
    rw [bind_eq_ok] at hp
    obtain ⟨existing, -, hp⟩ := hp
    cases existing with
    | some existing =>
      cases hp
      rfl
    | none =>
      simp only [↓then_eq_ok, bind_eq_ok] at hp
      obtain ⟨-, -, -, -, _, -, hp⟩ := hp
      cases hp

/-- What publishing a commit checked and did. -/
lemma publishCommit_published {r : VersionPublishRequest Id}
    (h : s.publishCommit cfg now r = .ok (.published, s')) :
    s.head r.branch = r.expected ∧
      s.authorizeBranchPublisher r.branch r.commit.id r.commit.provenance = .ok () ∧
      s.requireRef r.requiredRef = .ok () ∧
      ∃ reflogs, s.appendReflog cfg now r.branch r.expected (some r.commit.id) r.reflogAction =
        .ok reflogs ∧ s' = s.published r reflogs := by
  unfold Store.publishCommit at h
  rw [bind_eq_ok] at h
  obtain ⟨existing, -, h⟩ := h
  cases existing with
  | some existing => cases h
  | none =>
    simp only [↓then_eq_ok, bind_eq_ok, refuseIf_eq_ok, ne_eq, not_not] at h
    obtain ⟨hhead, hauth, hreq, -, reflogs, hlog, h⟩ := h
    cases h
    exact ⟨hhead, hauth, hreq, reflogs, hlog, rfl⟩

/-- A commit was published: from what was selected, what the branch had and what was captured. -/
structure Committed (P : Prolly env) (cfg : Settings Id) (now : Nat) (live : Live)
    (op : VersionCommitOperation) (s s' : Store Id) (commit : VersionCommit Id)
    (canonical : List String) (base : Contents Id) (captures : List Capture) : Prop where
  selected : canonicalizePathSet op.paths = .ok canonical
  loaded : P.contents s (s.branches.get? op.branch) = .ok base
  captured : live.capturePaths canonical = (captures, .ok ())
  changed : P.root (committedTree P base canonical captures) ≠
    (s.branches.get? op.branch).bind (·.tree)
  commit_eq : commit = .ofBody env
    { parents := (s.head op.branch).toList
      tree := P.root (committedTree P base canonical captures)
      createdAt := now
      message := op.message
      paths := canonical
      provenance := op.provenance.1 }
  named : validateVersionBranchName op.branch = .ok ()
  published : ∃ intent, ((s.putBlobs env (captures.filterMap Capture.blob)).putNodes env
    (P.nodes (committedTree P base canonical captures))).publishCommit cfg now
      ⟨op.branch, s.head op.branch, none, commit, intent, .commit⟩ = .ok (.published, s')

/-- **A commit stores objects only, or publishes what it captured.** -/
theorem commitPathsInner_cases {live : Live} {op : VersionCommitOperation}
    (h : commitPathsInner P cfg now live op s = (r, s')) :
    (Puts env s s' ∧ ∀ result, r = .ok result → result.replayed = true) ∨
      ∃ commit canonical base captures, r = .ok ⟨commit, false⟩ ∧
        Committed P cfg now live op s s' commit canonical base captures := by
  have hs : ∀ e, r = .error e → s' = s →
      Puts env s s' ∧ ∀ result, r = .ok result → result.replayed = true := by
    rintro e rfl rfl
    exact ⟨.refl _, nofun⟩
  refine attempt_or h hs fun _ hname h => ?_
  refine attempt_or h hs fun canonical hcanonical h => ?_
  refine attempt_or h hs fun intent _ h => ?_
  refine attempt_or h hs fun head hhead h => ?_
  refine attempt_or h hs fun replay _ h => ?_
  cases replay with
  | some commit =>
    cases h
    exact .inl ⟨.refl s, fun result h => by cases h; rfl⟩
  | none =>
    refine attempt_or h hs fun base hbase h => ?_
    refine attempt_or h (fun _ hr hs => ⟨hs ▸ .blobs _ s, hr ▸ nofun⟩) fun _ hcaptured h => ?_
    refine attempt_or h (fun _ hr hs => ⟨⟨_, _, hs⟩, hr ▸ nofun⟩) fun _ hnew h => ?_
    unfold Store.targetBranch at hhead
    simp only [↓then_eq_ok] at hhead
    cases hhead.2
    rcases publish_cases h with ⟨rfl, hr⟩ | ⟨hp, rfl⟩
    · exact .inl ⟨⟨_, _, rfl⟩, hr⟩
    · exact .inr ⟨_, canonical, base, _, rfl, hcanonical, hbase, Prod.ext rfl hcaptured,
        refuseIf_eq_ok.mp hnew, rfl, hname, intent, hp⟩

/-! ## The committed tree -/

section

variable {base : Contents Id} {canonical : List String} {captures : List Capture} {live : Live}

omit [ObjectId Id] in
/-- The keys of the old tree that are marked for deletion. -/
lemma get?_marked (k : TreeKey) :
    (insertAll ∅ ((base.scan (versionKeyMatchesAnyPath · canonical)).map fun e =>
      (e.1, (none : Option (TreeValue Id))))).get? k =
      if versionKeyMatchesAnyPath k canonical then (base.get? k).map fun _ => none else none := by
  split
  · rename_i hin
    cases hk : base.get? k with
    | some v =>
      refine get?_insertAll_of_agree ∅ ?_ ?_
      · exact ⟨_, List.mem_map_of_mem (mem_scan.mpr ⟨hk, hin⟩), rfl⟩
      intro e he _
      obtain ⟨x, -, rfl⟩ := List.mem_map.mp he
      rfl
    | none =>
      rw [get?_insertAll_of_not_mem, get?_empty]
      · rfl
      rw [List.map_map]
      intro hmem
      obtain ⟨x, hx, rfl⟩ := List.mem_map.mp hmem
      have := (mem_scan.mp hx).1
      rw [show base.get? x.1 = none from hk] at this
      cases this
  · rename_i hin
    rw [get?_insertAll_of_not_mem, get?_empty]
    rw [List.map_map]
    intro hmem
    obtain ⟨x, hx, rfl⟩ := List.mem_map.mp hmem
    exact hin (mem_scan.mp hx).2

/-- **The committed tree**: what the live tree has inside the selected paths, and what the
branch had outside. -/
theorem get?_committedTree (hcanonical : ∀ p ∈ canonical, Canonical p)
    (hcaptured : live.capturePaths canonical = (captures, .ok ())) (k : TreeKey) :
    (committedTree P base canonical captures).get? k =
      if versionKeyMatchesAnyPath k canonical then live.content env k else base.get? k := by
  have hspec : ∀ v, (∃ c ∈ captures, c.key = k ∧ c.value env = v) ↔
      (∃ p ∈ canonical, pathIsWithin (keyText k) p = true) ∧ live.content env k = some v :=
    fun v => Live.capturePaths_spec env hcanonical hcaptured
  have hmatch : versionKeyMatchesAnyPath k canonical = true ↔
      ∃ p ∈ canonical, pathIsWithin (keyPath k).1 p = true := List.any_eq_true
  rw [committedTree, P.batch_eq, get?_batch_entries, commitChanges]
  by_cases hc : ∃ c ∈ captures, c.key = k
  · obtain ⟨c, hc, hk⟩ := hc
    obtain ⟨hin, hcontent⟩ := (hspec _).mp ⟨c, hc, hk, rfl⟩
    rw [get?_insertAll_of_agree _, Option.getD_some, hcontent,
      if_pos (hmatch.mpr (Live.keyPath_of_content hcontent ▸ hin))]
    · exact ⟨_, List.mem_map_of_mem hc, hk⟩
    intro e he hek
    obtain ⟨c', hc', rfl⟩ := List.mem_map.mp he
    have := ((hspec _).mp ⟨c', hc', hek, rfl⟩).2
    rw [hcontent] at this
    exact congrArg some (Option.some.inj this).symm
  · -- nothing is captured at the key
    have hnone : versionKeyMatchesAnyPath k canonical = true → live.content env k = none := by
      intro hin
      by_contra hne
      obtain ⟨v, hv⟩ := Option.ne_none_iff_exists'.mp hne
      obtain ⟨c, hcm, hk, -⟩ :=
        (hspec v).mpr ⟨Live.keyPath_of_content hv ▸ hmatch.mp hin, hv⟩
      exact hc ⟨c, hcm, hk⟩
    rw [get?_insertAll_of_not_mem, get?_marked]
    · split
      · rename_i hin
        rw [hnone hin]
        cases base.get? k <;> rfl
      · rfl
    · rw [List.map_map]
      intro hmem
      obtain ⟨c, hcm, hk⟩ := List.mem_map.mp hmem
      exact hc ⟨c, hcm, hk⟩

end

/-- The nodes of a tree, once stored, are found under their digests. -/
lemma get?_putNodes (hinj : Function.Injective env.nodeDigest) {n : Node Id} (hn : n ∈ nodes) :
    (s.putNodes env nodes).nodes.get? (env.nodeDigest n) = some n := by
  refine get?_insertAll_of_agree _ ⟨_, List.mem_map_of_mem hn, rfl⟩ ?_
  intro e he hk
  obtain ⟨n', -, rfl⟩ := List.mem_map.mp he
  exact hinj hk

/-- Nodes and commits are kept under their digests. -/
structure Addressed (env : Env Id) (s : Store Id) : Prop where
  node : ∀ id n, s.nodes.get? id = some n → env.nodeDigest n = id
  commit : ∀ id body, s.commits.get? id = some body → env.commitDigest body = id

/-- Storing nodes does not replace one. -/
lemma Addressed.get?_putNodes (hs : Addressed env s) (hinj : Function.Injective env.nodeDigest)
    {id : Id} {n : Node Id} (h : s.nodes.get? id = some n) :
    (s.putNodes env nodes).nodes.get? id = some n := by
  by_cases hid : ∃ e ∈ nodes.map fun n => (env.nodeDigest n, n), e.1 = id
  · refine get?_insertAll_of_agree _ hid fun e he hk => ?_
    obtain ⟨n', -, rfl⟩ := List.mem_map.mp he
    exact hinj (hk.trans (hs.node id n h).symm)
  · refine (get?_insertAll_of_not_mem _ fun hmem => ?_).trans h
    obtain ⟨e, he, hk⟩ := List.mem_map.mp hmem
    exact hid ⟨e, he, hk⟩

/-- A tree that can be read is read the same once more nodes are stored. -/
lemma Addressed.load_putNodes (hs : Addressed env s) (hinj : Function.Injective env.nodeDigest)
    {r : Root Id} {m : Contents Id} (h : P.load s.nodes.get? r = .ok m) :
    P.load (s.putNodes env nodes).nodes.get? r = .ok m := by
  rw [← h]
  symm
  refine P.load_congr _ _ _ fun id hid => ?_
  obtain ⟨n, hn⟩ := Option.isSome_iff_exists.mp (P.load_present _ _ _ h id hid)
  rw [hn, hs.get?_putNodes hinj hn]

/-- **What a commit commits.** The new tree is the live one inside the selected paths and the
old one outside. The commit lists the outermost selected paths: they cover what was selected,
none is inside another, and they do not depend on order or repetition. -/
theorem commit_replaces_selected {P : Prolly env} (hinj : Function.Injective env.nodeDigest)
    {cfg : Settings Id} {now : Nat} {live : Live} {op : VersionCommitOperation} {s s' : Store Id}
    {commit : VersionCommit Id}
    (h : commitPathsInner P cfg now live op s = (.ok ⟨commit, false⟩, s')) :
    (∃ base tree, P.contents s (s.branches.get? op.branch) = .ok base ∧
      s'.branches.get? op.branch = some commit.ref ∧
      P.contents s' (s'.branches.get? op.branch) = .ok tree ∧
      ∀ k, ((∃ p, Selected op.paths p ∧ pathIsWithin (keyPath k).1 p = true) →
          tree.get? k = live.content env k) ∧
        (¬ (∃ p, Selected op.paths p ∧ pathIsWithin (keyPath k).1 p = true) →
          tree.get? k = base.get? k)) ∧
    (∀ q, q ∈ commit.paths ↔ Outermost (Selected op.paths) q) ∧
    (∀ q, (∃ p ∈ commit.paths, pathIsWithin q p = true) ↔
      ∃ p, Selected op.paths p ∧ pathIsWithin q p = true) ∧
    (∀ p ∈ commit.paths, ∀ q ∈ commit.paths, pathIsWithin p q = true → p = q) ∧
    ∀ paths, (∀ p, p ∈ paths ↔ p ∈ op.paths) → canonicalizePathSet paths = .ok commit.paths := by
  rcases commitPathsInner_cases h with ⟨-, hr⟩ | ⟨commit', canonical, base, captures, hr, hc⟩
  · cases hr _ rfl
  cases hr
  have hpaths : commit.paths = canonical := by rw [hc.commit_eq]; rfl
  obtain ⟨intent, hp⟩ := hc.published
  obtain ⟨-, -, -, reflogs, -, rfl⟩ := publishCommit_published hp
  rw [hpaths]
  have hroots := (canonicalizePathSet_spec hc.selected).2.1
  refine ⟨⟨base, committedTree P base canonical captures, hc.loaded, get?_insert_self .., ?_,
    fun k => ?_⟩,
    hroots, fun q => covered_iff hc.selected,
    fun p hp q hq hin => (((hroots p).mp hp).2 q ((hroots q).mp hq).1 hin).symm,
    fun paths hmem => canonicalizePathSet_congr hc.selected hmem⟩
  · show P.contents _ ((OrdMap.insert _ op.branch commit.ref).get? op.branch) = _
    rw [get?_insert_self, hc.commit_eq]
    exact P.load_root _ _ fun n hn => get?_putNodes hinj hn
  · rw [← covered_iff hc.selected, get?_committedTree (roots_canonical hc.selected) hc.captured]
    have hmatch : versionKeyMatchesAnyPath k canonical = true ↔
      ∃ p ∈ canonical, pathIsWithin (keyPath k).1 p = true := List.any_eq_true
    rw [← hmatch]
    exact ⟨fun hin => if_pos hin, fun hout => if_neg hout⟩

end

/-! ## A small commit -/

/-- The commit that an operation published. -/
def freshCommit {Id : Type} [ObjectId Id] (r : Except Error (VersionCommitResult Id) × Store Id) :
    Option (VersionCommit Id) :=
  match r.1 with
  | .ok ⟨commit, false⟩ => some commit
  | _ => none

lemma exists_of_freshCommit {Id : Type} [ObjectId Id]
    {r : Except Error (VersionCommitResult Id) × Store Id} (h : (freshCommit r).isSome) :
    ∃ commit s', r = (.ok ⟨commit, false⟩, s') := by
  unfold freshCommit at h
  split at h
  · rename_i commit hr
    exact ⟨commit, r.2, Prod.ext hr rfl⟩
  · cases h

namespace Digest

def dirNode : LiveNode := ⟨7, 0, 0, ⟨0, 0⟩, ⟨0, 0⟩, .directory⟩

def fileNode (contents : Bytes) : LiveNode := ⟨7, 0, 0, ⟨0, 0⟩, ⟨0, 0⟩, .file contents⟩

/-- A live tree with one file, in chunks of one byte. -/
def liveFile (contents : Bytes) : OrdMap LivePath LiveNode :=
  insertAll ∅ [([], dirNode), ([textName ['f']], fileNode contents)]

def liveTwo : Live := .ofNodes (liveFile [5, 6]) 1 (by decide +kernel)

lemma who_checked : who.Checked := ⟨by decide +kernel, by decide +kernel, by decide +kernel⟩

def emptyStore : Store Digest := storeOf [] [] [] [] []

def commitFile : VersionCommitOperation := ⟨"main", ["f"], "", ⟨who, who_checked⟩, none⟩

end Digest

open Digest in
theorem commit_replaces_file : ∃ commit s',
    commitPathsInner (.flat env) (.unlimited []) 0 liveTwo commitFile emptyStore =
      (.ok ⟨commit, false⟩, s') ∧
    ∃ base tree,
      (Prolly.flat env).contents emptyStore (emptyStore.branches.get? "main") = .ok base ∧
      s'.branches.get? "main" = some commit.ref ∧
      (Prolly.flat env).contents s' (s'.branches.get? "main") = .ok tree ∧
      ∀ k, ((∃ p, Selected ["f"] p ∧ pathIsWithin (keyPath k).1 p = true) →
          tree.get? k = liveTwo.content env k) ∧
        (¬ (∃ p, Selected ["f"] p ∧ pathIsWithin (keyPath k).1 p = true) →
          tree.get? k = base.get? k) := by
  obtain ⟨commit, s', h⟩ := exists_of_freshCommit
    (r := commitPathsInner (.flat env) (.unlimited []) 0 liveTwo commitFile emptyStore)
    (by decide +kernel)
  exact ⟨commit, s', h, (commit_replaces_selected env_injective.node h).1⟩

end SlateFs.Version
