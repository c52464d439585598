import SlateFs.Version.Branches
import SlateFs.Version.Synced

/-!
# Names of tags and branches

A reference is looked up among the tags first and then among the branches. The answer
does not depend on that order as long as no name is both.

Tags and branches that are created by name are checked against each other. But a first
commit, a cherry-pick onto a missing `main` and a sync pack create a branch too, and do
not look at the tags; and a bundle may bring a tag and a branch of one name.
-/

namespace SlateFs.Version

open OrdMap SlateFs.Version.Store

section

variable {Id : Type} [ObjectId Id] {env : Env Id}

/-- No name is both a tag and a branch. -/
def Distinct (s : Objects Id) : Prop :=
  ∀ name, (s.tags.get? name).isSome → s.branches.get? name = none

/-- Looking up a name among the branches first. -/
def Store.resolveBranchFirst (s : Store Id) (reference : String) :
    Except Error (VersionCommit Id) :=
  match s.branches.get? reference with
  | some branch =>
    okOr (.versioning
      s!"version branch {reference} references missing commit {hex branch.commitId}")
      (s.tryGetCommit branch.commitId)
  | none =>
    match s.tags.get? reference with
    | some tag =>
      okOr (.versioning
        s!"version tag {reference} references missing commit {hex tag.commitId}")
        (s.tryGetCommit tag.commitId)
    | none => .error (.notFound "version commit, tag, or branch" reference)

/-- Where names are distinct the order does not matter. -/
lemma resolveName_order {s : Store Id} (h : Distinct s.toObjects) (reference : String) :
    s.resolveName reference = s.resolveBranchFirst reference := by
  unfold resolveName resolveBranchFirst
  cases ht : s.tags.get? reference with
  | none => cases s.branches.get? reference <;> rfl
  | some tag =>
    rw [h reference (by rw [ht]; rfl)]

/-- A branch that a call creates by publishing has no tag of its name, and a bundle has distinct
names. -/
def NameFree (s : Store Id) : RepositoryCall env → Prop
  | .importBundle _ objects => Distinct objects
  | call => ∀ name, call.publishes = some name → s.branches.get? name = none →
      s.tags.get? name = none

/-! ## One call -/

variable {s s' : Store Id}

/-- A branch may move, or be created where there is no tag. -/
lemma Distinct.insert (h : Distinct s.toObjects) {branch : String} {reference : VersionRef Id}
    (ht : s'.tags = s.tags) (hb : s'.branches = s.branches.insert branch reference)
    (hfree : (s.branches.get? branch).isSome ∨ s.tags.get? branch = none) :
    Distinct s'.toObjects := by
  intro name hname
  rw [ht] at hname
  rw [hb, get?_insert]
  split
  · rename_i heq
    subst heq
    rcases hfree with hsome | hnone
    · rw [h _ hname] at hsome
      cases hsome
    · rw [hnone] at hname
      cases hname
  · exact h name hname

lemma Distinct.congr (h : Distinct s.toObjects) (ht : s'.tags = s.tags)
    (hb : s'.branches = s.branches) : Distinct s'.toObjects := by
  unfold Distinct
  rw [ht, hb]
  exact h

variable {call : RepositoryCall env}

/-- What `NameFree` says of a branch that a call publishes to. -/
lemma NameFree.of_publishes (h : NameFree s call) {name : String}
    (hname : call.publishes = some name) :
    (s.branches.get? name).isSome ∨ s.tags.get? name = none := by
  cases hb : s.branches.get? name with
  | some reference => exact .inl rfl
  | none =>
    refine .inr ?_
    cases call with
    | importBundle identity objects => cases hname
    | commit | merge | cherryPick | sync => exact h name hname hb
    | _ => cases hname

/-- **Every call that meets the condition keeps names distinct.** -/
theorem distinct_effect {cfg : SyncSettings Id} {now : Nat} (h : Distinct s.toObjects)
    (hc : NameFree s call) (he : Effect cfg now call s s') :
    Distinct s'.toObjects := by
  -- a branch is set where there was one, or no tag
  have hset : BranchSet cfg.toSettings now s s' → Distinct s'.toObjects := by
    rintro ⟨-, -, hname, -⟩
    exact h.insert rfl rfl hname
  cases he with
  | stored hputs =>
    obtain ⟨ht, hb, -⟩ := hputs.refs
    exact h.congr ht hb
  | published hputs hbranch _ hpub =>
    obtain ⟨ht, hb, -⟩ := hputs.refs
    obtain ⟨-, -, -, reflogs, -, rfl⟩ := publishCommit_published hpub
    refine h.insert ht (congrArg (fun b => OrdMap.insert b _ _) hb) (hc.of_publishes hbranch)
  | forwarded _ hf =>
    obtain ⟨-, -, htarget, reflogs, -, rfl⟩ := fastForwardBranch_ok hf.forwarded
    exact h.insert rfl rfl (.inl htarget)
  | @tagged tagName tag _ _ ht =>
    obtain ⟨hb, rfl⟩ := createTag_ok ht
    intro name hname
    by_cases heq : name = tagName
    · exact heq ▸ hb
    · rw [get?_insert_of_ne _ _ heq] at hname
      exact h name hname
  | untagged ht =>
    obtain rfl := deleteTag_ok ht
    intro name hname
    obtain ⟨tag, htag⟩ := Option.isSome_iff_exists.mp hname
    exact h name (by rw [get?_of_get?_erase htag]; rfl)
  | branched hc hb => exact hset (createBranch_set hc hb)
  | @deleted branch _ _ hb =>
    obtain ⟨-, -, reflogs, -, rfl⟩ := deleteBranch_ok hb
    intro name hname
    cases hfound : (s.branches.erase branch).get? name with
    | none => rfl
    | some reference =>
      have hnone := h name hname
      rw [get?_of_get?_erase hfound] at hnone
      cases hnone
  | reset hc hb => exact hset (resetBranch_set hc hb)
  | recovered hb => exact hset (recoverBranch_set hb)
  | protection hp =>
    obtain ⟨-, -, rfl⟩ := setBranchProtected_ok hp
    exact h
  | attested _ _ ha =>
    rcases putAttestation_ok ha with rfl | ⟨-, rfl⟩
    · exact h
    · exact h
  | pruned => exact h
  | collected _ hg =>
    obtain ⟨l, T, rfl, -⟩ := garbageCollect_removes hg
    exact h.congr (tags_removeAll ..) (branches_removeAll ..)
  | synced hbranch hsync =>
    obtain ⟨o, body, ha⟩ := applySyncPayload_applied hsync
    have hj := (join_ok ha.joined).2
    have hstored := ha.stored
    -- a branch that is at the target is left alone
    split at hstored
    · subst hstored
      exact h.congr hj.tags hj.branches
    · obtain ⟨reflogs, -, ⟨⟩⟩ := bind_eq_ok.mp hstored
      exact h.insert hj.tags (congrArg (fun b => OrdMap.insert b _ _) hj.branches)
        (hc.of_publishes hbranch)
  | imported hcall himport =>
    subst hcall
    rw [(importBundle_ok himport).1]
    exact hc

/-- **Names stay distinct.** In every store that calls reach from an empty one, as long as
none of them publishes a new branch under the name of a tag or imports a bundle in which a
name is both, no name is both a tag and a branch and a reference means the same in either
order. -/
theorem names_distinct_of_free (P : Prolly env) (identity : VersionRepositoryIdentity)
    {s : Store Id} (h : Reached P NameFree (Store.empty identity) s) :
    Distinct s.toObjects ∧
      ∀ reference, s.resolveName reference = s.resolveBranchFirst reference := by
  have hd : Distinct s.toObjects :=
    h.invariant nofun fun hd hc hp =>
      distinct_effect hd hc (perform_effect hp)
  exact ⟨hd, resolveName_order hd⟩

end

namespace Digest

/-- A repository in which the first commit is tagged `x`. -/
def tagged : Store Digest :=
  storeOf [1] [original] [("main", original)] [] [("x", ⟨idOf original, 0⟩)]

/-- Another copy of it, with a branch `x`. -/
def branched : Store Digest := storeOf [1, 2] [original, edited] [("x", edited)] [] []

/-- The store after importing the tag. -/
def tagImported : Store Digest :=
  (perform (.flat env) (.unlimited []) 0 (.importBundle tagged.identity tagged.toObjects)
    (Store.empty tagged.identity)).2

/-- The store after a pack was applied to it. -/
def tagSynced (p : VersionRepositorySyncPayload Digest) : Store Digest :=
  (perform (.flat env) (.unlimited []) 0 (.sync "x" p false) tagImported).2

/-- A pack is accepted, and `x` then means two commits. -/
def clashes (p : VersionRepositorySyncPayload Digest) : Bool :=
  (perform (.flat env) (.unlimited []) 0 (.sync "x" p false) tagImported).1 = .ok () &&
    ((tagSynced p).tags.get? "x").isSome && ((tagSynced p).branches.get? "x").isSome &&
    ((tagSynced p).resolveName "x").toOption.map (·.id) ≠
      ((tagSynced p).resolveBranchFirst "x").toOption.map (·.id)

lemma tagged_distinct : Distinct tagged.toObjects := by
  intro name hname
  obtain ⟨tag, htag⟩ := Option.isSome_iff_exists.mp hname
  have hmem := (mem_of_get?_insertAll htag).resolve_left nofun
  cases List.mem_singleton.mp hmem
  decide +kernel

end Digest

open Digest in
/-- A bundle with a tag `x` is imported, and a pack for a branch `x` is applied: the name is both,
and means two commits. -/
theorem sync_names_branch_as_tag :
    ∃ p report s₁ s₂, branched.exportSync env "x" none = .ok (p, report) ∧
      perform (.flat env) (.unlimited []) 0 (.importBundle tagged.identity tagged.toObjects)
        (Store.empty tagged.identity) = (.ok (), s₁) ∧
      perform (.flat env) (.unlimited []) 0 (.sync "x" p false) s₁ = (.ok (), s₂) ∧
      (s₂.tags.get? "x").isSome ∧ (s₂.branches.get? "x").isSome ∧
      s₂.resolveName "x" ≠ s₂.resolveBranchFirst "x" := by
  have hany : (branched.exportSync env "x" none).toOption.any (fun a => clashes a.1) = true := by
    decide +kernel
  obtain ⟨⟨p, report⟩, hexport, hp⟩ := exists_ok_of_any hany
  simp only [clashes, Bool.and_eq_true, decide_eq_true_eq] at hp
  obtain ⟨⟨⟨hok, htag⟩, hbranch⟩, hne⟩ := hp
  refine ⟨p, report, tagImported, tagSynced p, hexport, Prod.ext (by decide +kernel) rfl,
    Prod.ext hok rfl, htag, hbranch, fun heq => hne ?_⟩
  rw [heq]

open Digest in
theorem imported_names_distinct :
    Distinct tagImported.toObjects ∧
      ∀ reference, tagImported.resolveName reference = tagImported.resolveBranchFirst reference :=
  have himport : NameFree (Store.empty tagged.identity)
      (.importBundle tagged.identity tagged.toObjects) := tagged_distinct
  names_distinct_of_free (.flat env) tagged.identity (.call .start himport (Prod.ext rfl rfl))

end SlateFs.Version
