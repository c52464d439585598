import SlateFs.Version.Quorum
import SlateFs.Version.Sweep
import SlateFs.Version.Sync

/-!
# The calls of a repository

The operations of `VersionRepository` on branches, tags and protections check names,
resolve references and hand over to the store. A merge fast-forwards, or publishes a
commit with two parents.

`RepositoryCall` collects all calls that change a repository, and `perform` is what a
call does at a clock reading: an answer and a new store. What any call can do to the
store is said once, in `Effect`; what holds over runs is derived from it.
-/

namespace SlateFs.Version

open Worklist Objects

variable {Id : Type} [ObjectId Id] {env : Env Id}

/-! ## Merging branches -/

structure VersionMergeOperation where
  source : String
  target : String
  expectedSource : Option String
  expectedTarget : Option String
  strategy : VersionMergeConflictStrategy
  provenance : Provenance

structure VersionMergeInfo (Id : Type) where
  source : String
  target : String
  commit : Id
  strategy : VersionMergeConflictStrategy
  fastForward : Bool
  alreadyUpToDate : Bool

/-- The trees of a merge: of the base, of the target and of the source. -/
def mergeTrees (P : Prolly env) (s : Store Id) (op : VersionMergeOperation)
    (target source : Id) : Except Error (Contents Id × Contents Id × Contents Id) := do
  let baseId ← okOr (.versioning
    s!"branches {op.source} and {op.target} have no common merge base") (s.mergeBase target source)
  let base ← s.getCommit baseId
  let targetCommit ← s.getCommit target
  let sourceCommit ← s.getCommit source
  let baseTree ← P.load s.nodes.get? base.tree
  let targetTree ← P.load s.nodes.get? targetCommit.tree
  let sourceTree ← P.load s.nodes.get? sourceCommit.tree
  return (baseTree, targetTree, sourceTree)

/-- The commit of a merge. -/
def mergeCommit (env : Env Id) (now : Nat) (op : VersionMergeOperation) (target source : Id)
    (tree : Root Id) (paths : List String) : VersionCommit Id :=
  .ofBody env
    { parents := [target, source]
      tree := tree
      createdAt := now
      message := s!"Merge {op.source} into {op.target} ({op.strategy.asStr})"
      paths := paths
      provenance := op.provenance.1 }

/-- What a merge publishes. -/
def mergeRequest (P : Prolly env) (now : Nat) (op : VersionMergeOperation) (target source : Id)
    (merged : Contents Id) (changes : List VersionPathChange) : VersionPublishRequest Id :=
  { branch := op.target
    expected := some target
    requiredRef := some (op.source, source)
    commit := mergeCommit env now op target source (P.root merged) (changes.map (·.path))
    idempotency := none
    reflogAction := .merge }

/-- `merge_branch_inner` -/
def mergeBranchInner (P : Prolly env) (cfg : Settings Id) (now : Nat) (op : VersionMergeOperation)
    (s : Store Id) : Except Error (VersionMergeInfo Id) × Store Id :=
  attempt s (validateVersionBranchName op.source) fun _ =>
  attempt s (validateVersionBranchName op.target) fun _ =>
  attempt s (refuseIf (op.source = op.target) (.invalid "version branch merge"
    "source and target must differ")) fun _ =>
  attempt s (s.getBranch op.source) fun source =>
  attempt s (s.getBranch op.target) fun target =>
  attempt s (requireTarget op.source (some source) op.expectedSource) fun _ =>
  attempt s (requireTarget op.target (some target) op.expectedTarget) fun _ =>
  let info := fun (commit : Id) (fastForward alreadyUpToDate : Bool) =>
    (⟨op.source, op.target, commit, op.strategy, fastForward, alreadyUpToDate⟩ :
      VersionMergeInfo Id)
  if source.commitId = target.commitId
      ∨ s.commitIsAncestor source.commitId target.commitId = true then
    (.ok (info target.commitId false true), s)
  else if s.commitIsAncestor target.commitId source.commitId then
    attempt s (s.fastForwardBranch cfg now op.source op.target source.commitId target.commitId
      op.provenance.1) fun (merged, s') => (.ok (info merged.commitId true false), s')
  else
    attempt s (mergeTrees P s op target.commitId source.commitId) fun (base, left, right) =>
    attempt s (resolveThreeWayMerge P op.source op.target base left right op.strategy) fun merged =>
    let s₁ := s.putNodes env (P.nodes merged)
    attempt s₁ (diffTrees P left merged) fun changes =>
    match publish cfg now
        (mergeRequest P now op target.commitId source.commitId merged changes) s₁ with
    | (.error e, s₂) => (.error e, s₂)
    | (.ok result, s₂) => (.ok (info result.commit.id false false), s₂)

/-! ## Branches, tags and protections -/

namespace Repository

variable (cfg : Settings Id) (now : Nat)

/-- `create_tag` -/
def createTag (name commit : String) (s : Store Id) : Except Error (Store Id) := do
  validateVersionTagName name
  let id ← parseCommitId commit
  let _ ← s.getCommit id
  s.createTag name ⟨id, now⟩

/-- `delete_tag` -/
def deleteTag (name : String) (s : Store Id) : Except Error (VersionTag Id × Store Id) := do
  validateVersionTagName name
  s.deleteTag name

/-- `create_branch` -/
def createBranch (name commit : String) (s : Store Id) :
    Except Error (Store Id) := do
  validateVersionBranchName name
  refuseIf (name = "main") (.invalid "version branch" "main already exists as the default branch")
  let commit ← s.resolveCommit commit
  s.createBranch cfg now name commit.ref

/-- `delete_branch` -/
def deleteBranch (name : String) (s : Store Id) :
    Except Error (VersionRef Id × Store Id) := do
  validateVersionBranchName name
  refuseIf (name = "main") (.invalid "version branch" "the default main branch cannot be deleted")
  s.deleteBranch cfg now name

/-- `reset_branch` -/
def resetBranch (name commit : String) (s : Store Id) :
    Except Error (Store Id) := do
  validateVersionBranchName name
  let current ← s.getBranch name
  let commit ← s.resolveCommit commit
  s.resetBranch cfg now name current.commitId commit.ref

/-- `recover_branch` -/
def recoverBranch (name : String) (sequence : Nat) (s : Store Id) :
    Except Error ((Option (VersionRef Id) × VersionRef Id) × Store Id) := do
  validateVersionBranchName name
  refuseIf (sequence = 0) (.invalid "version branch reflog sequence" "must be greater than zero")
  s.recoverBranch cfg now name sequence

/-- A manager acts under a valid identity. -/
def checkManager : Option String → Except Error Unit
  | none => .ok ()
  | some manager => validateVersionIdentity "version branch policy manager" manager

/-- `set_branch_protected` and `set_branch_protected_as` -/
def setBranchProtection (name : String) (isProtected : Bool)
    (policy : VersionBranchProtectionPolicy env) (manager : Option String) (s : Store Id) :
    Except Error (VersionRef Id × Store Id) := do
  checkManager manager
  validateVersionBranchName name
  s.setBranchProtected now name isProtected policy manager

end Repository

/-! ## Calls -/

/-- The calls that change a repository. -/
inductive RepositoryCall (env : Env Id) where
  | commit (live : Live) (op : VersionCommitOperation)
  | merge (op : VersionMergeOperation)
  | cherryPick (op : VersionCherryPickOperation)
  | createTag (name commit : String)
  | deleteTag (name : String)
  | createBranch (name commit : String)
  | deleteBranch (name : String)
  | resetBranch (name commit : String)
  | recoverBranch (name : String) (sequence : Nat)
  | setProtection (name : String) (isProtected : Bool) (policy : VersionBranchProtectionPolicy env)
      (manager : Option String)
  | attest (reference keyId : String) (attestation : VersionCommitAttestation)
  | pruneReflogs
  | garbageCollect (steps : Nat) (keepLast maxAgeSecs : Option Nat) (dryRun : Bool)
      (maxDeletions : Option Nat)
  | sync (branch : String) (payload : VersionRepositorySyncPayload Id) (force : Bool)
  | importBundle (identity : VersionRepositoryIdentity) (objects : Objects Id)

/-- A call that changes the store only when it succeeds. -/
def settle {α : Type} (s : Store Id) : Except Error (α × Store Id) → Except Error Unit × Store Id
  | .error e => (.error e, s)
  | .ok (_, s') => (.ok (), s')

/-- A call whose answer is not looked at. -/
def answered {α : Type} : Except Error α × Store Id → Except Error Unit × Store Id
  | (.error e, s) => (.error e, s)
  | (.ok _, s) => (.ok (), s)

/-- A call that answers nothing. -/
def settleUnit (s : Store Id) : Except Error (Store Id) → Except Error Unit × Store Id
  | .error e => (.error e, s)
  | .ok s' => (.ok (), s')

/-- A call that may run out of steps; it has changed nothing then. -/
def settleSteps {α : Type} (s : Store Id) :
    Option (Except Error (α × Store Id)) → Except Error Unit × Store Id
  | none => (.ok (), s)
  | some r => settle s r

/-- **What a call does.** -/
def perform (P : Prolly env) (cfg : SyncSettings Id) (now : Nat) (call : RepositoryCall env)
    (s : Store Id) : Except Error Unit × Store Id :=
  match call with
  | .commit live op => answered (commitPathsInner P cfg.toSettings now live op s)
  | .merge op => answered (mergeBranchInner P cfg.toSettings now op s)
  | .cherryPick op => answered (cherryPickInner P cfg.toSettings now op s)
  | .createTag name commit => settleUnit s (Repository.createTag now name commit s)
  | .deleteTag name => settle s (Repository.deleteTag name s)
  | .createBranch name commit =>
    settleUnit s (Repository.createBranch cfg.toSettings now name commit s)
  | .deleteBranch name => settle s (Repository.deleteBranch cfg.toSettings now name s)
  | .resetBranch name commit =>
    settleUnit s (Repository.resetBranch cfg.toSettings now name commit s)
  | .recoverBranch name sequence =>
    settle s (Repository.recoverBranch cfg.toSettings now name sequence s)
  | .setProtection name isProtected policy manager =>
    settle s (Repository.setBranchProtection now name isProtected policy manager s)
  | .attest reference keyId attestation =>
    settleUnit s (s.addCommitAttestation env cfg.toSettings reference keyId attestation)
  | .pruneReflogs => (.ok (), (s.pruneReflogs cfg.toSettings).2)
  | .garbageCollect steps keepLast maxAgeSecs dryRun maxDeletions =>
    settleSteps s (s.garbageCollect env steps now keepLast maxAgeSecs dryRun maxDeletions)
  | .sync branch payload force =>
    settle s (applySyncBundle env cfg now branch payload force (some s))
  | .importBundle identity objects => settle s (importBundle env cfg identity objects (some s))

/-- The branch that a call publishes to. -/
def RepositoryCall.publishes : RepositoryCall env → Option String
  | .commit _ op => some op.branch
  | .merge op => some op.target
  | .cherryPick op => some op.target
  | .sync _ payload _ => some payload.branch
  | _ => none

/-! ## How a merge and a cherry-pick end -/

section

variable {P : Prolly env} {cfg : Settings Id} {now : Nat} {s s' : Store Id}

/-- A merge was published. -/
structure Merged (P : Prolly env) (cfg : Settings Id) (now : Nat) (op : VersionMergeOperation)
    (s s' : Store Id) (source target : VersionRef Id) (base left right merged : Contents Id)
    (changes : List VersionPathChange) : Prop where
  named : validateVersionBranchName op.target = .ok ()
  source_eq : s.branches.get? op.source = some source
  target_eq : s.branches.get? op.target = some target
  differ : source.commitId ≠ target.commitId
  unmerged : ¬ s.Ancestor source.commitId target.commitId
  ahead : ¬ s.Ancestor target.commitId source.commitId
  trees : mergeTrees P s op target.commitId source.commitId = .ok (base, left, right)
  resolved : resolveThreeWayMerge P op.source op.target base left right op.strategy = .ok merged
  diffed : diffTrees P left merged = .ok changes
  published : (s.putNodes env (P.nodes merged)).publishCommit cfg now
    (mergeRequest P now op target.commitId source.commitId merged changes) = .ok (.published, s')

/-- A branch was fast-forwarded. -/
structure Forwarded (cfg : Settings Id) (now : Nat) (op : VersionMergeOperation) (s s' : Store Id)
    (source target : VersionRef Id) : Prop where
  named : validateVersionBranchName op.target = .ok ()
  source_eq : s.branches.get? op.source = some source
  target_eq : s.branches.get? op.target = some target
  behind : s.Ancestor target.commitId source.commitId
  forwarded : s.fastForwardBranch cfg now op.source op.target source.commitId target.commitId
    op.provenance.1 = .ok (source, s')

/-- Publishing stores nothing, or publishes. -/
lemma publish_puts {request : VersionPublishRequest Id} {s₁ : Store Id}
    {r : Except Error (VersionCommitResult Id)} (hputs : Puts env s s₁)
    (h : publish cfg now request s₁ = (r, s')) :
    Puts env s s' ∨ s₁.publishCommit cfg now request = .ok (.published, s') := by
  rcases publish_cases h with ⟨rfl, -⟩ | ⟨hp, -⟩
  · exact .inl hputs
  · exact .inr hp

lemma Puts.nodes (nodes : List (Node Id)) (s : Store Id) : Puts env s (s.putNodes env nodes) :=
  ⟨[], nodes, rfl⟩

lemma Store.head_of_branch {branch : String} {reference : VersionRef Id}
    (h : s.branches.get? branch = some reference) : s.head branch = some reference.commitId := by
  rw [Objects.head, h]
  rfl

lemma Store.fastForwardBranch_ok {source target : String} {expectedSource expectedTarget : Id}
    {provenance : VersionCommitProvenance} {reference : VersionRef Id}
    (h : s.fastForwardBranch cfg now source target expectedSource expectedTarget provenance =
      .ok (reference, s')) :
    s.branches.get? source = some reference ∧
      s.authorizeBranchPublisher target reference.commitId provenance = .ok () ∧
      (s.branches.get? target).isSome ∧
      ∃ reflogs, s.appendReflog cfg now target (s.head target) (some reference.commitId)
          .fastForward = .ok reflogs ∧
        s' = { s with branches := s.branches.insert target reference, reflogs := reflogs } := by
  unfold fastForwardBranch at h
  simp only [↓then_eq_ok, bind_eq_ok] at h
  obtain ⟨ref, href, current, hcurrent, -, hauth, reflogs, hlog, ⟨⟩⟩ := h
  have hcurrent := okOr_eq_ok.mp hcurrent
  rw [← head_of_branch hcurrent] at hlog
  exact ⟨okOr_eq_ok.mp href, hauth, by rw [hcurrent]; rfl, reflogs, hlog, rfl⟩

/-- **A merge stores objects only, fast-forwards, or publishes.** -/
theorem mergeBranchInner_cases {op : VersionMergeOperation}
    {r : Except Error (VersionMergeInfo Id)} (h : mergeBranchInner P cfg now op s = (r, s')) :
    Puts env s s' ∨ (∃ source target, Forwarded cfg now op s s' source target) ∨
      ∃ source target base left right merged changes,
        Merged P cfg now op s s' source target base left right merged changes := by
  have hs : ∀ e, r = .error e → s' = s → Puts env s s' := fun _ _ hs => hs ▸ .refl _
  refine attempt_or h hs fun _ _ h => ?_
  refine attempt_or h hs fun _ hname h => ?_
  refine attempt_or h hs fun _ _ h => ?_
  refine attempt_or h hs fun source hsource h => ?_
  refine attempt_or h hs fun target htarget h => ?_
  refine attempt_or h hs fun _ _ h => ?_
  refine attempt_or h hs fun _ _ h => ?_
  have hsource := okOr_eq_ok.mp hsource
  have htarget := okOr_eq_ok.mp htarget
  split at h
  · cases h
    exact .inl (.refl s)
  rename_i hne
  split at h
  · rename_i hff
    refine attempt_or h hs fun ⟨merged, s₁⟩ hforward h => ?_
    cases h
    obtain rfl := Option.some.inj ((Store.fastForwardBranch_ok hforward).1.symm.trans hsource)
    exact .inr (.inl ⟨merged, target, hname, hsource, htarget,
      commitIsAncestor_iff.mp hff, hforward⟩)
  rename_i hahead
  refine attempt_or h hs fun ⟨base, left, right⟩ htrees h => ?_
  refine attempt_or h hs fun merged hmerged h => ?_
  refine attempt_or h (fun _ _ hs => hs ▸ .nodes _ s) fun changes hchanges h => ?_
  generalize hpub : publish cfg now _ _ = out at h
  obtain ⟨answer, s₂⟩ := out
  have hs' : s₂ = s' := by
    cases answer <;> exact (Prod.mk.inj h).2
  subst hs'
  rcases publish_puts (.nodes _ s) hpub with hputs | hp
  · exact .inl hputs
  exact .inr (.inr ⟨source, target, base, left, right, merged, changes, hname, hsource, htarget,
    fun he => hne (.inl he), fun ha => hne (.inr (commitIsAncestor_iff.mpr ha)),
    fun ha => hahead (commitIsAncestor_iff.mpr ha), htrees, hmerged, hchanges, hp⟩)

/-- A cherry-pick was published. -/
structure PickedOn (P : Prolly env) (cfg : Settings Id) (now : Nat)
    (op : VersionCherryPickOperation) (s s' : Store Id) (source : VersionCommit Id)
    (target : Contents Id) (plan : CherryPickPlan Id) : Prop where
  named : validateVersionBranchName op.target = .ok ()
  resolved : s.resolveCommit op.source = .ok source
  planned : ∃ parent, s.cherryPickBase source op.mainline = .ok parent ∧
    pickPlan P s parent (s.branches.get? op.target) source = .ok plan
  changes : plan.mutations ≠ []
  target_read : P.contents s (s.branches.get? op.target) = .ok target
  published : ∃ intent, (s.putNodes env (P.nodes (target.batch plan.mutations))).publishCommit cfg
    now (pickRequest P now s op source target plan intent) = .ok (.published, s')

/-- **A cherry-pick stores objects only, or publishes.** -/
theorem cherryPickInner_cases {op : VersionCherryPickOperation}
    {r : Except Error (VersionCherryPickInfo Id)} (h : cherryPickInner P cfg now op s = (r, s')) :
    Puts env s s' ∨ ∃ source target plan, PickedOn P cfg now op s s' source target plan := by
  have hs : ∀ e, r = .error e → s' = s → Puts env s s' := fun _ _ hs => hs ▸ .refl _
  refine attempt_or h hs fun _ hname h => ?_
  refine attempt_or h hs fun source hsource h => ?_
  refine attempt_or h hs fun parent hparent h => ?_
  refine attempt_or h hs fun intent _ h => ?_
  refine attempt_or h hs fun head hhead h => ?_
  refine attempt_or h hs fun replay _ h => ?_
  cases replay with
  | some commit =>
    cases h
    exact .inl (.refl s)
  | none =>
    simp only [] at h
    refine attempt_or h hs fun _ _ h => ?_
    refine attempt_or h hs fun plan hplan h => ?_
    unfold Store.targetBranch at hhead
    simp only [↓then_eq_ok] at hhead
    cases hhead.2
    split at h
    · cases h
      exact .inl (.refl s)
    split at h
    · split at h <;> cases h <;> exact .inl (.refl s)
    rename_i hm
    refine attempt_or h hs fun target htarget h => ?_
    simp only [P.batch_eq] at h
    generalize hpub : publish cfg now _ _ = out at h
    obtain ⟨answer, s₂⟩ := out
    have hs' : s₂ = s' := by
      cases answer <;> exact (Prod.mk.inj h).2
    subst hs'
    rcases publish_puts (.nodes _ s) hpub with hputs | hp
    · exact .inl hputs
    · exact .inr ⟨source, target, plan, hname, hsource, ⟨parent, hparent, hplan⟩, by simpa using hm,
        htarget, intent, hp⟩

end

/-! ## What a call can do -/

/-- **What a call can do to the store**, with what it has checked before. -/
inductive Effect (cfg : SyncSettings Id) (now : Nat) (call : RepositoryCall env) (s : Store Id) :
    Store Id → Prop where
  | stored {s' : Store Id} (h : Puts env s s') : Effect cfg now call s s'
  | published {s₁ s' : Store Id} {r : VersionPublishRequest Id} (hputs : Puts env s s₁)
      (hbranch : call.publishes = some r.branch)
      (hparent : ∀ head, r.expected = some head → head ∈ r.commit.parents)
      (h : s₁.publishCommit cfg.toSettings now r = .ok (.published, s')) : Effect cfg now call s s'
  | forwarded {op : VersionMergeOperation} {s' : Store Id} {source target : VersionRef Id}
      (hcall : call = .merge op) (h : Forwarded cfg.toSettings now op s s' source target) :
      Effect cfg now call s s'
  | tagged {name : String} {tag : VersionTag Id} {s' : Store Id}
      (hc : (s.commits.get? tag.commitId).isSome) (h : s.createTag name tag = .ok s') :
      Effect cfg now call s s'
  | untagged {name : String} {tag : VersionTag Id} {s' : Store Id}
      (h : s.deleteTag name = .ok (tag, s')) : Effect cfg now call s s'
  | branched {name : String} {commit : VersionCommit Id} {s' : Store Id}
      (hc : s.commits.get? commit.id = some commit.toVersionCommitBody)
      (h : s.createBranch cfg.toSettings now name commit.ref = .ok s') : Effect cfg now call s s'
  | deleted {name : String} {reference : VersionRef Id} {s' : Store Id}
      (h : s.deleteBranch cfg.toSettings now name = .ok (reference, s')) : Effect cfg now call s s'
  | reset {name : String} {expected : Id} {commit : VersionCommit Id} {s' : Store Id}
      (hc : s.commits.get? commit.id = some commit.toVersionCommitBody)
      (h : s.resetBranch cfg.toSettings now name expected commit.ref = .ok s') :
      Effect cfg now call s s'
  | recovered {name : String} {sequence : Nat} {r : Option (VersionRef Id) × VersionRef Id}
      {s' : Store Id} (h : s.recoverBranch cfg.toSettings now name sequence = .ok (r, s')) :
      Effect cfg now call s s'
  | protection {name : String} {isProtected : Bool} {policy : VersionBranchProtectionPolicy env}
      {manager : Option String} {reference : VersionRef Id} {s' : Store Id}
      (h : s.setBranchProtected now name isProtected policy manager = .ok (reference, s')) :
      Effect cfg now call s s'
  | attested {commit : VersionCommit Id} {keyId : String} {attestation : VersionCommitAttestation}
      {s' : Store Id} (hc : s.commits.get? commit.id = some commit.toVersionCommitBody)
      (hv : verifyVersionCommitAttestation env s.identity.id commit.id keyId attestation = .ok ())
      (h : s.putAttestation cfg.toSettings commit.id keyId attestation = .ok s') :
      Effect cfg now call s s'
  | pruned : Effect cfg now call s (s.pruneReflogs cfg.toSettings).2
  | collected {steps : Nat} {keepLast maxAgeSecs : Option Nat} {dryRun : Bool}
      {maxDeletions : Option Nat} {report : VersionGcReport} {s' : Store Id}
      (hcall : call = .garbageCollect steps keepLast maxAgeSecs dryRun maxDeletions)
      (h : s.garbageCollect env steps now keepLast maxAgeSecs dryRun maxDeletions =
        some (.ok (report, s'))) : Effect cfg now call s s'
  | synced {p : VersionRepositorySyncPayload Id} {force : Bool}
      {report : VersionRepositorySyncReport Id} {s' : Store Id}
      (hbranch : call.publishes = some p.branch)
      (h : applySyncPayload env cfg now p force s = .ok (report, s')) : Effect cfg now call s s'
  | imported {identity : VersionRepositoryIdentity} {objects : Objects Id}
      {report : VersionRepositoryBundleReport} {s' : Store Id}
      (hcall : call = .importBundle identity objects)
      (h : importBundle env cfg identity objects (some s) = .ok (report, s')) :
      Effect cfg now call s s'

section

variable {P : Prolly env} {cfg : SyncSettings Id} {now : Nat} {call : RepositoryCall env}
  {s s' : Store Id} {r : Except Error Unit}

lemma answered_eq {α : Type} {x : Except Error α × Store Id} (h : answered x = (r, s')) :
    ∃ a, x = (a, s') := by
  obtain ⟨a, s₁⟩ := x
  refine ⟨a, ?_⟩
  cases a <;> rw [← (Prod.mk.inj h).2]

/-- A reference is resolved to a commit that is stored. -/
lemma Store.resolveCommit_stored {reference : String} {c : VersionCommit Id}
    (h : s.resolveCommit reference = .ok c) :
    s.commits.get? c.id = some c.toVersionCommitBody := by
  unfold Store.resolveCommit at h
  split at h
  · rename_i id _
    obtain ⟨rfl, hc⟩ := getCommit_eq_ok.mp h
    exact hc
  · have h := (then_eq_ok.mp h).2
    unfold Store.resolveName at h
    split at h
    · obtain ⟨hc, hid⟩ := tryGetCommit_eq.mp (okOr_eq_ok.mp h)
      rw [hid]
      exact hc
    · split at h
      · obtain ⟨hc, hid⟩ := tryGetCommit_eq.mp (okOr_eq_ok.mp h)
        rw [hid]
        exact hc
      · cases h

/-- A call that fails outside of publishing changes nothing. -/
lemma effect_of_settle {α : Type} {x : Except Error (α × Store Id)} (h : settle s x = (r, s'))
    (hok : ∀ a, x = .ok (a, s') → Effect cfg now call s s') : Effect cfg now call s s' := by
  cases x with
  | error e =>
    cases h
    exact .stored (.refl s)
  | ok a =>
    cases h
    exact hok a.1 rfl

lemma effect_of_settleUnit {x : Except Error (Store Id)} (h : settleUnit s x = (r, s'))
    (hok : x = .ok s' → Effect cfg now call s s') : Effect cfg now call s s' := by
  cases x with
  | error e =>
    cases h
    exact .stored (.refl s)
  | ok a =>
    cases h
    exact hok rfl

lemma effect_of_settleSteps {α : Type} {x : Option (Except Error (α × Store Id))}
    (h : settleSteps s x = (r, s'))
    (hok : ∀ a, x = some (.ok (a, s')) → Effect cfg now call s s') : Effect cfg now call s s' := by
  cases x with
  | none =>
    cases h
    exact .stored (.refl s)
  | some x => exact effect_of_settle h fun a ha => hok a (congrArg some ha)

/-- **Every call has one of these effects.** -/
theorem perform_effect (h : perform P cfg now call s = (r, s')) : Effect cfg now call s s' := by
  cases call with
  | commit live op =>
    obtain ⟨a, h⟩ := answered_eq h
    rcases commitPathsInner_cases h with ⟨hputs, -⟩ | ⟨commit, canonical, base, captures, -, hc⟩
    · exact .stored hputs
    obtain ⟨intent, hpub⟩ := hc.published
    refine .published ⟨_, _, rfl⟩ rfl (fun head hh => ?_) hpub
    rw [hc.commit_eq]
    exact Option.mem_toList.mpr hh
  | merge op =>
    obtain ⟨a, h⟩ := answered_eq h
    rcases mergeBranchInner_cases h with hputs | ⟨source, target, hf⟩ |
      ⟨source, target, base, left, right, merged, changes, hm⟩
    · exact .stored hputs
    · exact .forwarded rfl hf
    refine .published (.nodes _ s) rfl (fun head hh => ?_) hm.published
    cases hh
    exact List.mem_cons_self ..
  | cherryPick op =>
    obtain ⟨a, h⟩ := answered_eq h
    rcases cherryPickInner_cases h with hputs | ⟨source, target, plan, hp⟩
    · exact .stored hputs
    obtain ⟨intent, hpub⟩ := hp.published
    refine .published (.nodes _ s) rfl (fun head hh => ?_) hpub
    exact Option.mem_toList.mpr hh
  | createTag name commit =>
    refine effect_of_settleUnit h fun h => ?_
    unfold Repository.createTag at h
    simp only [↓then_eq_ok, bind_eq_ok] at h
    obtain ⟨-, id, -, commit, hcommit, h⟩ := h
    obtain ⟨-, hstored⟩ := getCommit_eq_ok.mp hcommit
    exact .tagged (by rw [hstored]; rfl) h
  | deleteTag name =>
    exact effect_of_settle h fun _ h => .untagged (then_eq_ok.mp h).2
  | createBranch name commit =>
    refine effect_of_settleUnit h fun h => ?_
    unfold Repository.createBranch at h
    simp only [↓then_eq_ok, bind_eq_ok] at h
    obtain ⟨-, -, commit, hcommit, h⟩ := h
    exact .branched (Store.resolveCommit_stored hcommit) h
  | deleteBranch name =>
    exact effect_of_settle h fun _ h => .deleted (then_eq_ok.mp (then_eq_ok.mp h).2).2
  | resetBranch name commit =>
    refine effect_of_settleUnit h fun h => ?_
    unfold Repository.resetBranch at h
    simp only [↓then_eq_ok, bind_eq_ok] at h
    obtain ⟨-, _, -, commit, hcommit, h⟩ := h
    exact .reset (Store.resolveCommit_stored hcommit) h
  | recoverBranch name sequence =>
    exact effect_of_settle h fun _ h => .recovered (then_eq_ok.mp (then_eq_ok.mp h).2).2
  | setProtection name isProtected policy manager =>
    exact effect_of_settle h fun _ h => .protection (then_eq_ok.mp (then_eq_ok.mp h).2).2
  | attest reference keyId attestation =>
    refine effect_of_settleUnit h fun h => ?_
    unfold Store.addCommitAttestation at h
    simp only [↓then_eq_ok, bind_eq_ok] at h
    obtain ⟨commit, hcommit, hv, h⟩ := h
    exact .attested (Store.resolveCommit_stored hcommit) hv h
  | pruneReflogs =>
    cases h
    exact .pruned
  | garbageCollect steps keepLast maxAgeSecs dryRun maxDeletions =>
    exact effect_of_settleSteps h fun _ h => .collected rfl h
  | sync branch payload force =>
    exact effect_of_settle h fun _ h => .synced rfl (applySyncBundle_payload h).2
  | importBundle identity objects =>
    exact effect_of_settle h fun _ h => .imported rfl h

/-! ## One change -/

namespace Store

variable {name : String} {provenance : VersionCommitProvenance} {tag : VersionTag Id}
  {cfg : Settings Id} {reference : VersionRef Id}

lemma rejectProtectedBranch_ok {operation : String} :
    s.rejectProtectedBranch name operation = .ok () ↔ s.protections.get? name = none := by
  unfold rejectProtectedBranch
  rw [refuseIf_eq_ok, Option.not_isSome_iff_eq_none]

/-- **A publisher is authorised** when the protection of the branch, if any, allows its committer
and finds its quorum. -/
theorem authorizeBranchPublisher_ok {commit : Id} :
    s.authorizeBranchPublisher name commit provenance = .ok () ↔
      ∀ p, s.protections.get? name = some p →
        (p.allowedCommitters ≠ [] → provenance.committer ∈ p.allowedCommitters) ∧
          p.requiredAttestations ≤ s.trustedAttestationCount commit p.trustedAttestationKeys := by
  unfold authorizeBranchPublisher
  cases hp : s.protections.get? name with
  | none => simp
  | some p => simp [↓then_eq_ok, refuseIf_eq_ok]

lemma createTag_ok (h : s.createTag name tag = .ok s') :
    s.branches.get? name = none ∧ s' = { s with tags := s.tags.insert name tag } := by
  unfold createTag at h
  simp only [↓then_eq_ok, refuseIf_eq_ok, Option.not_isSome_iff_eq_none] at h
  obtain ⟨-, hb, ⟨⟩⟩ := h
  exact ⟨hb, rfl⟩

lemma deleteTag_ok (h : s.deleteTag name = .ok (tag, s')) :
    s' = { s with tags := s.tags.erase name } := by
  obtain ⟨_, -, ⟨⟩⟩ := bind_eq_ok.mp h
  rfl

/-- A branch without protection was set to a stored commit, and that was logged. -/
inductive BranchSet (cfg : Settings Id) (now : Nat) (s : Store Id) : Store Id → Prop
  | mk {name : String} {commit : VersionCommit Id} {action : VersionReflogAction}
      {reflogs : OrdMap (String ×ₗ Nat) (VersionReflogRecord Id)}
      (hc : s.commits.get? commit.id = some commit.toVersionCommitBody)
      (hfree : s.protections.get? name = none)
      (hname : (s.branches.get? name).isSome ∨ s.tags.get? name = none)
      (hlog : s.appendReflog cfg now name (s.head name) (some commit.id) action = .ok reflogs) :
      BranchSet cfg now s
        { s with branches := s.branches.insert name commit.ref, reflogs := reflogs }

variable {commit : VersionCommit Id}

lemma createBranch_set (hc : s.commits.get? commit.id = some commit.toVersionCommitBody)
    (h : s.createBranch cfg now name commit.ref = .ok s') : BranchSet cfg now s s' := by
  unfold createBranch at h
  simp only [↓then_eq_ok, bind_eq_ok, refuseIf_eq_ok, Option.not_isSome_iff_eq_none] at h
  obtain ⟨hb, ht, hp, reflogs, hlog, ⟨⟩⟩ := h
  have hhead : s.head name = none := by
    rw [Objects.head, hb]
    rfl
  rw [← hhead] at hlog
  exact .mk hc hp (.inr ht) hlog

lemma deleteBranch_ok (h : s.deleteBranch cfg now name = .ok (reference, s')) :
    s.protections.get? name = none ∧ s.branches.get? name = some reference ∧
      ∃ reflogs, s.appendReflog cfg now name (s.head name) none .delete = .ok reflogs ∧
        s' = { s with branches := s.branches.erase name, reflogs := reflogs } := by
  unfold deleteBranch at h
  simp only [↓then_eq_ok, bind_eq_ok, rejectProtectedBranch_ok] at h
  obtain ⟨hp, ref, href, reflogs, hlog, ⟨⟩⟩ := h
  have href := okOr_eq_ok.mp href
  rw [← head_of_branch href] at hlog
  exact ⟨hp, href, reflogs, hlog, rfl⟩

lemma resetBranch_set {expected : Id}
    (hc : s.commits.get? commit.id = some commit.toVersionCommitBody)
    (h : s.resetBranch cfg now name expected commit.ref = .ok s') : BranchSet cfg now s s' := by
  unfold resetBranch at h
  simp only [↓then_eq_ok, bind_eq_ok, rejectProtectedBranch_ok] at h
  obtain ⟨hp, current, hcurrent, -, reflogs, hlog, ⟨⟩⟩ := h
  have hcurrent := okOr_eq_ok.mp hcurrent
  rw [← head_of_branch hcurrent] at hlog
  exact .mk hc hp (.inl (by rw [hcurrent]; rfl)) hlog

lemma recoverBranch_set {sequence : Nat} {r : Option (VersionRef Id) × VersionRef Id}
    (h : s.recoverBranch cfg now name sequence = .ok (r, s')) : BranchSet cfg now s s' := by
  unfold recoverBranch at h
  simp only [↓then_eq_ok, bind_eq_ok, rejectProtectedBranch_ok, refuseIf_eq_ok,
    getCommit_eq_ok] at h
  obtain ⟨hp, record, -, target, -, commit, ⟨rfl, hcommit⟩, -, ht, reflogs, hlog, ⟨⟩⟩ := h
  refine .mk hcommit hp ?_ hlog
  -- a branch that is recovered from nothing was checked against the tags
  cases hb : s.branches.get? name with
  | some reference => exact .inl rfl
  | none =>
    rw [hb] at ht
    exact .inr (by simpa using ht)

lemma setBranchProtected_ok {isProtected : Bool} {policy : VersionBranchProtectionPolicy env}
    {manager : Option String}
    (h : s.setBranchProtected now name isProtected policy manager = .ok (reference, s')) :
    s.branches.get? name = some reference ∧
      (isProtected = true → policy.requiredAttestations ≤
        s.trustedAttestationCount reference.commitId policy.trustedAttestationKeys) ∧
      s' = s.withProtection now name isProtected policy := by
  obtain ⟨ref, href, h⟩ := bind_eq_ok.mp h
  have href := okOr_eq_ok.mp href
  cases manager with
  | none =>
    simp only [↓then_eq_ok, refuseIf_eq_ok, not_and, Nat.not_lt] at h
    obtain ⟨hq, ⟨⟩⟩ := h
    exact ⟨href, hq, rfl⟩
  | some manager =>
    simp only [↓then_eq_ok, refuseIf_eq_ok, not_and, Nat.not_lt] at h
    obtain ⟨-, hq, ⟨⟩⟩ := h
    exact ⟨href, hq, rfl⟩

lemma putAttestation_ok {commit : Id} {keyId : String} {attestation : VersionCommitAttestation}
    (h : s.putAttestation cfg commit keyId attestation = .ok s') :
    s' = s ∨ s.attestations.get? (toLex (commit, keyId)) = none ∧
      s' = { s with
        attestations := s.attestations.insert (toLex (commit, keyId)) attestation } := by
  unfold putAttestation at h
  split at h
  · split at h
    · cases h
      exact .inl rfl
    · cases h
  · rename_i hnone
    simp only [↓then_eq_ok] at h
    obtain ⟨-, ⟨⟩⟩ := h
    exact .inr ⟨hnone, rfl⟩

end Store

/-! ## Runs -/

/-- **The stores that calls reach**, one after the other, each at any time and under any settings,
as long as every call meets a condition in the store it finds. -/
inductive Reached (P : Prolly env) (C : Store Id → RepositoryCall env → Prop) (start : Store Id) :
    Store Id → Prop where
  | start : Reached P C start start
  | call {s s' : Store Id} {cfg : SyncSettings Id} {now : Nat} {call : RepositoryCall env}
      {r : Except Error Unit} (h : Reached P C start s) (hc : C s call)
      (hp : perform P cfg now call s = (r, s')) : Reached P C start s'

/-- What every call keeps holds in every store that is reached. -/
lemma Reached.invariant {C : Store Id → RepositoryCall env → Prop} {start : Store Id}
    {I : Store Id → Prop} (h : Reached P C start s) (hstart : I start)
    (hcall : ∀ {s s' : Store Id} {cfg : SyncSettings Id} {now : Nat} {call : RepositoryCall env}
      {r : Except Error Unit}, I s → C s call → perform P cfg now call s = (r, s') → I s') :
    I s := by
  induction h with
  | start => exact hstart
  | call _ hc hp ih => exact hcall ih hc hp

lemma Puts.refs (h : Puts env s s') : s'.tags = s.tags ∧ s'.branches = s.branches ∧
    s'.protections = s.protections ∧ s'.attestations = s.attestations ∧
    s'.reflogs = s.reflogs ∧ s'.commits = s.commits := by
  obtain ⟨chunks, nodes, rfl⟩ := h
  exact ⟨rfl, rfl, rfl, rfl, rfl, rfl⟩

end

end SlateFs.Version
