import SlateFs.Version.Bundle

/-!
# Collecting version history

`garbage_collect`: decide which commits to retain, mark their trees, then walk the
store in key order and delete what is not marked until the budget is used up.

The loops that follow first parents have no memory of where they were, so on a
cyclic history they would not end. They are given steps, and `none` says that the
steps did not suffice. The reclaimed bytes of the report are left out.
-/

namespace SlateFs.Version

open Worklist

variable {Id : Type} [ObjectId Id]

def DEFAULT_GC_MAX_DELETIONS : Nat := 10000

def MAX_GC_MAX_DELETIONS : Nat := 1000000

/-- How much of a branch's first-parent history to retain. -/
structure Limits where
  keepLast : Option Nat
  cutoff : Option Nat
  deriving DecidableEq, Repr

/-- Whether the commit at a position of a branch is retained. -/
def Limits.keeps (l : Limits) (position createdAt : Nat) : Bool :=
  position = 0 || (l.keepLast.all (position < ·) && l.cutoff.all (· ≤ createdAt))

def Limits.unbounded (l : Limits) : Bool := l.keepLast.isNone && l.cutoff.isNone

namespace Objects

/-! ## Retention -/

/-- Follow first parents: the commits met, newest first, and the id of the missing commit at
which the history breaks off. -/
def lineage (s : Objects Id) : Nat → Option Id → Option (List (VersionCommit Id) × Option Id)
  | _, none => some ([], none)
  | 0, some _ => none
  | n + 1, some id =>
    match s.tryGetCommit id with
    | none => some ([], some id)
    | some commit =>
      match s.lineage n commit.parents.head? with
      | none => none
      | some (chain, stop) => some (commit :: chain, stop)

/-- The commits of a branch's history that the limits keep. -/
def keptOf (l : Limits) (chain : List (VersionCommit Id)) : List Id :=
  (chain.zipIdx.filter (fun e => l.keeps e.2 e.1.createdAt)).map (·.1.id)

variable (s : Objects Id)

/-- `main` may break off anywhere. -/
def keptMain (n : Nat) (l : Limits) : Option (List Id) :=
  match s.branches.get? "main" with
  | none => some []
  | some head => (s.lineage n (some head.commitId)).map (fun r => keptOf l r.1)

/-- Any other branch may break off at a pruned commit, behind its head. -/
def checkStop (name : String) (chain : List (VersionCommit Id)) :
    Option Id → Except Error Unit
  | none => .ok ()
  | some id =>
    if !chain.isEmpty && s.isPrunedCommit id then .ok ()
    else .error (.versioning s!"version branch {name} references missing commit {hex id}")

def keptBranches (s : Objects Id) (n : Nat) (l : Limits) :
    List (String × VersionRef Id) → Option (Except Error (List Id))
  | [] => some (.ok [])
  | (name, head) :: rest =>
    if name = "main" then s.keptBranches n l rest
    else
      match s.lineage n (some head.commitId) with
      | none => none
      | some (chain, stop) =>
        match s.checkStop name chain stop with
        | .error e => some (.error e)
        | .ok () =>
          match s.keptBranches n l rest with
          | none => none
          | some (.error e) => some (.error e)
          | some (.ok ids) => some (.ok (keptOf l chain ++ ids))

/-- Add commits that a reference names, which must exist. -/
def pin (s : Objects Id) : List (String × Id) → List Id → Except Error (List Id)
  | [], ids => .ok ids
  | (what, id) :: rest, ids =>
    if id ∈ ids then s.pin rest ids
    else if (s.commits.get? id).isNone then
      .error (.versioning s!"{what} references missing commit {hex id}")
    else s.pin rest (id :: ids)

def tagPins : List (String × Id) :=
  s.tags.entries.map (fun e => (s!"version tag {e.1}", e.2.commitId))

def reflogPins : List (String × Id) :=
  s.reflogCommitIds.map (fun id => ("version reflog", id))

/-- The retained commits: those that the limits keep on a branch, without limits also their
whole ancestry, and then those that tags and reflog entries name. -/
def retained (n : Nat) (l : Limits) : Option (Except Error (List Id)) :=
  match s.keptMain n l with
  | none => none
  | some main =>
    match s.keptBranches n l s.branches.entries with
    | none => none
    | some (.error e) => some (.error e)
    | some (.ok others) =>
      let kept := main ++ others
      let kept := if l.unbounded then closure s.commits (·.parents) kept else kept
      match s.pin (s.tagPins ++ s.reflogPins) kept with
      | .error e => some (.error e)
      | .ok ids => some (.ok ((ids.filter fun id => (s.commits.get? id).isSome).dedup))

end Objects

/-! ## The sweep -/

/-- A record the sweep may delete. -/
inductive Candidate (Id : Type) where
  | attestation (commit : Id) (keyId : String)
  | blob (id : Id)
  | commit (id : Id)
  | idempotency (keyHash : Id)
  | node (id : Id)
  deriving DecidableEq

structure VersionGcReport where
  retainedCommits : Nat
  deletedCommits : Nat
  deletedAttestations : Nat
  deletedNodes : Nat
  deletedBlobs : Nat
  deletedIdempotencyRecords : Nat
  remainingObjects : Nat
  maxDeletions : Nat
  complete : Bool
  dryRun : Bool
  deriving DecidableEq, Repr

namespace Store

variable (s : Store Id)

/-- What is not marked, in key order: `pa/`, `pb/`, `pc/`, `pi/`, `pn/`. -/
def candidates (retained nodes blobs : List Id) : List (Candidate Id) :=
  (s.attestations.entries.filter fun e => (ofLex e.1).1 ∉ retained).map
      (fun e => .attestation (ofLex e.1).1 (ofLex e.1).2) ++
    (s.blobs.entries.filter fun e => e.1 ∉ blobs).map (fun e => .blob e.1) ++
    (s.commits.entries.filter fun e => e.1 ∉ retained).map (fun e => .commit e.1) ++
    (s.idempotency.entries.filter fun e => e.2.commitId ∉ retained).map
      (fun e => .idempotency e.1) ++
    (s.nodes.entries.filter fun e => e.1 ∉ nodes).map (fun e => .node e.1)

/-- Delete a record; a commit leaves a marker. -/
def remove : Candidate Id → Store Id
  | .attestation commit keyId =>
    { s with attestations := s.attestations.erase (toLex (commit, keyId)) }
  | .blob id => { s with blobs := s.blobs.erase id }
  | .commit id =>
    { s with commits := s.commits.erase id, prunedCommits := s.prunedCommits.insert id () }
  | .idempotency keyHash => { s with idempotency := s.idempotency.erase keyHash }
  | .node id => { s with nodes := s.nodes.erase id }

/-- One atomic batch. -/
def removeAll (cs : List (Candidate Id)) : Store Id := cs.foldl remove s

/-- What a collection would delete: the number of retained commits and the candidates. -/
def mark (env : Env Id) (n : Nat) (l : Limits) :
    Option (Except Error (Nat × List (Candidate Id))) :=
  match s.retained n l with
  | none => none
  | some (.error e) => some (.error e)
  | some (.ok retained) =>
    let trees := retained.filterMap s.tryGetCommit |>.map (·.tree)
    match env.markReachable s.nodes trees with
    | .error e => some (.error e)
    | .ok nodes =>
      match env.markReachableBlobs s.nodes trees with
      | .error e => some (.error e)
      | .ok blobs =>
        some (.ok (retained.length, s.candidates retained nodes (blobs.map (·.cid))))

def report (retained : Nat) (taken : List (Candidate Id)) (remaining maxDeletions : Nat)
    (dryRun : Bool) : VersionGcReport where
  retainedCommits := retained
  deletedCommits := taken.countP fun | .commit _ => true | _ => false
  deletedAttestations := taken.countP fun | .attestation .. => true | _ => false
  deletedNodes := taken.countP fun | .node _ => true | _ => false
  deletedBlobs := taken.countP fun | .blob _ => true | _ => false
  deletedIdempotencyRecords := taken.countP fun | .idempotency _ => true | _ => false
  remainingObjects := remaining
  maxDeletions := maxDeletions
  complete := remaining = 0
  dryRun := dryRun

/-- A collection with a budget. -/
def collect (env : Env Id) (n : Nat) (l : Limits) (dryRun : Bool) (budget : Nat) :
    Option (Except Error (VersionGcReport × Store Id)) :=
  match s.mark env n l with
  | none => none
  | some (.error e) => some (.error e)
  | some (.ok (retained, candidates)) =>
    let taken := candidates.take budget
    some (.ok (report retained taken (candidates.length - budget) budget dryRun,
      if dryRun then s else s.removeAll taken))

/-- `garbage_collect` at a clock reading, with steps for its loops. -/
def garbageCollect (env : Env Id) (n now : Nat) (keepLast maxAgeSecs : Option Nat) (dryRun : Bool)
    (maxDeletions : Option Nat) : Option (Except Error (VersionGcReport × Store Id)) :=
  let budget := maxDeletions.getD DEFAULT_GC_MAX_DELETIONS
  if budget = 0 ∨ budget > MAX_GC_MAX_DELETIONS then
    some (.error (.invalid "version gc max deletions"
      s!"must be between 1 and {MAX_GC_MAX_DELETIONS}"))
  else s.collect env n ⟨keepLast, maxAgeSecs.map (now - ·)⟩ dryRun budget

end Store

end SlateFs.Version
