import SlateFs.Version.Branches

/-!
# Protected branches

A branch is protected under a policy: committers that may publish to it, and a number of
attestations by trusted keys that its head must have.

Eight calls move branches. Four of them refuse a protected branch; a commit, a merge, a
cherry-pick and a sync pack check the policy first, and build on the head they found. So
while a branch is protected it exists, its head has the quorum, and it only moves to
descendants that an allowed committer asked for.
-/

namespace SlateFs.Version

open OrdMap Worklist SlateFs.Version.Store

section

variable {Id : Type} [ObjectId Id] {env : Env Id}

/-- The new head of a branch names an allowed committer, or the fast-forward to it does. -/
def NamesCommitter (call : RepositoryCall env) (s s' : Store Id) (head : VersionRef Id)
    (allowed : List String) : Prop :=
  (∃ body, s'.commits.get? head.commitId = some body ∧ body.provenance.committer ∈ allowed) ∨
    ∃ op, call = .merge op ∧ s.branches.get? op.source = some head ∧
      op.provenance.1.committer ∈ allowed

/-- **What a call may do to a protected branch**: leave its head, or move it to a descendant for an
allowed committer. -/
def Advances (call : RepositoryCall env) (s s' : Store Id) (branch : String)
    (p : VersionBranchProtection) : Prop :=
  ∃ head head', s.branches.get? branch = some head ∧ s'.branches.get? branch = some head' ∧
    (head' = head ∨ s'.Ancestor head.commitId head'.commitId ∧
      (p.allowedCommitters ≠ [] → NamesCommitter call s s' head' p.allowedCommitters))

/-- A branch exists and its head has the quorum of a protection. -/
def Guarded (s : Store Id) (branch : String) (p : VersionBranchProtection) : Prop :=
  ∃ head, s.branches.get? branch = some head ∧
    p.requiredAttestations ≤ s.trustedAttestationCount head.commitId p.trustedAttestationKeys

/-- Heads are stored and protected branches guarded. -/
structure WellGuarded (s : Store Id) : Prop where
  stored : ∀ branch head, s.branches.get? branch = some head →
    (s.commits.get? head.commitId).isSome
  guarded : ∀ branch p, s.protections.get? branch = some p → Guarded s branch p

/-! ## One call -/

variable {s s' : Store Id} {call : RepositoryCall env}

/-- What is still known of a commit that heads a branch. -/
structure Carries (s s' : Store Id) (id : Id) : Prop where
  commit : (s.commits.get? id).isSome → (s'.commits.get? id).isSome
  count : ∀ keys, s.trustedAttestationCount id keys ≤ s'.trustedAttestationCount id keys

lemma Carries.of_sub {id : Id}
    (hc : (s.commits.get? id).isSome → (s'.commits.get? id).isSome)
    (ha : ∀ k a, s.attestations.get? k = some a → s'.attestations.get? k = some a) :
    Carries s s' id :=
  ⟨hc, fun _ => Objects.trustedAttestationCount_mono fun _ _ => ha _ _⟩

lemma Carries.of_eq {id : Id} (hc : s'.commits = s.commits)
    (ha : s'.attestations = s.attestations) : Carries s s' id :=
  .of_sub (fun h => by rw [hc]; exact h) (fun _ _ h => by rw [ha]; exact h)

/-- The outcome of a call for the protected branches. -/
structure Outcome (call : RepositoryCall env) (s s' : Store Id) : Prop where
  guarded : WellGuarded s'
  advances : ∀ branch p p', s.protections.get? branch = some p →
    s'.protections.get? branch = some p' → Advances call s s' branch p

lemma WellGuarded.still (h : WellGuarded s) (hb : s'.branches = s.branches)
    (hp : s'.protections = s.protections)
    (hc : ∀ branch head, s.branches.get? branch = some head → Carries s s' head.commitId) :
    Outcome call s s' where
  guarded :=
    { stored := fun branch head hhead => by
        rw [hb] at hhead
        exact (hc branch head hhead).commit (h.stored branch head hhead)
      guarded := fun branch p hprotected => by
        rw [hp] at hprotected
        obtain ⟨head, hhead, hcount⟩ := h.guarded branch p hprotected
        refine ⟨head, by rw [hb]; exact hhead, ?_⟩
        exact Nat.le_trans hcount ((hc branch head hhead).count _) }
  advances branch p _ hprotected _ := by
    obtain ⟨head, hhead, -⟩ := h.guarded branch p hprotected
    exact ⟨head, head, hhead, by rw [hb]; exact hhead, .inl rfl⟩

/-- A call that moves one branch, under its protection. -/
lemma WellGuarded.moved (h : WellGuarded s) (branch : String) (head' : VersionRef Id)
    (hb : s'.branches = s.branches.insert branch head') (hp : s'.protections = s.protections)
    (hc : ∀ id, Carries s s' id) (hstored : (s'.commits.get? head'.commitId).isSome)
    (hmove : ∀ p head, s.protections.get? branch = some p → s.branches.get? branch = some head →
      p.requiredAttestations ≤ s'.trustedAttestationCount head'.commitId p.trustedAttestationKeys ∧
        s'.Ancestor head.commitId head'.commitId ∧
        (p.allowedCommitters ≠ [] → NamesCommitter call s s' head' p.allowedCommitters)) :
    Outcome call s s' where
  guarded :=
    { stored := fun b head hhead => by
        rw [hb] at hhead
        rcases of_get?_insert hhead with ⟨-, rfl⟩ | hhead
        · exact hstored
        · exact (hc _).commit (h.stored b head hhead)
      guarded := fun b p hprotected => by
        rw [hp] at hprotected
        obtain ⟨head, hhead, hcount⟩ := h.guarded b p hprotected
        by_cases heq : b = branch
        · subst heq
          refine ⟨head', by rw [hb, get?_insert_self], ?_⟩
          exact (hmove p head hprotected hhead).1
        · refine ⟨head, by rw [hb, get?_insert_of_ne _ _ heq]; exact hhead, ?_⟩
          exact Nat.le_trans hcount ((hc _).count _) }
  advances b p _ hprotected _ := by
    obtain ⟨head, hhead, -⟩ := h.guarded b p hprotected
    by_cases heq : b = branch
    · subst heq
      refine ⟨head, head', hhead, by rw [hb, get?_insert_self], .inr ?_⟩
      exact (hmove p head hprotected hhead).2
    · exact ⟨head, head, hhead, by rw [hb, get?_insert_of_ne _ _ heq]; exact hhead, .inl rfl⟩

variable {reflogs : OrdMap (String ×ₗ Nat) (VersionReflogRecord Id)} {r : VersionPublishRequest Id}
  {now : Nat} {p : VersionRepositorySyncPayload Id} {cfg : SyncSettings Id}

/-- A branch that is not protected may move anywhere. -/
lemma WellGuarded.set (h : WellGuarded s) {cfg : Settings Id} (hset : BranchSet cfg now s s') :
    Outcome call s s' := by
  obtain ⟨hc, hfree, -, -⟩ := hset
  refine h.moved _ _ rfl rfl (fun _ => .of_eq rfl rfl) (Option.isSome_iff_exists.mpr ⟨_, hc⟩)
    fun p head hp => ?_
  rw [hfree] at hp
  cases hp

/-- A published commit descends from the head it was made on. -/
lemma ancestor_published {head : Id} (h : head ∈ r.commit.parents) :
    (s.published r reflogs).Ancestor head r.commit.id := by
  refine .step (.root rfl) ?_
  exact mem_follow.mpr ⟨_, get?_insert_self .., h⟩

lemma WellGuarded.published (h : WellGuarded s) {cfg : Settings Id} {s₁ : Store Id}
    (hputs : Puts env s s₁) (hparent : ∀ head, r.expected = some head → head ∈ r.commit.parents)
    (hpub : s₁.publishCommit cfg now r = .ok (.published, s')) : Outcome call s s' := by
  obtain ⟨-, hb, hp, ha, -, hc⟩ := hputs.refs
  obtain ⟨hhead, hauth, -, reflogs, -, rfl⟩ := publishCommit_published hpub
  have hstored : (s₁.published r reflogs).commits.get? r.commit.id =
      some r.commit.toVersionCommitBody := get?_insert_self ..
  refine h.moved r.branch r.commit.ref
    (congrArg (fun b => OrdMap.insert b _ _) hb) hp (fun id => .of_sub (fun hsome => ?_) ?_)
    (by rw [show r.commit.ref.commitId = r.commit.id from rfl, hstored]; rfl)
    fun p head hpro hh => ?_
  · show (OrdMap.get? (s₁.commits.insert _ _) id).isSome
    rw [get?_insert, hc]
    split
    · rfl
    · exact hsome
  · exact fun k a hk => by
      show s₁.attestations.get? k = some a
      rw [ha]
      exact hk
  · rw [← hp] at hpro
    obtain ⟨hallowed, hquorum⟩ := authorizeBranchPublisher_ok.mp hauth p hpro
    refine ⟨hquorum, ancestor_published (hparent _ ?_), fun hne => .inl ⟨_, hstored, hallowed hne⟩⟩
    rw [← hhead]
    show (s₁.branches.get? r.branch).map _ = _
    rw [hb, hh]
    rfl

/-- Storing the objects of a pack keeps what is known. -/
lemma carries_joined {o : Objects Id} (hj : Joined s.toObjects p o)
    (ho : s'.toObjects.commits = o.commits) (ha : s'.toObjects.attestations = o.attestations)
    (id : Id) : Carries s s' id := by
  refine .of_sub (fun hsome => ?_) fun k a hk => ?_
  · obtain ⟨body, hbody⟩ := Option.isSome_iff_exists.mp hsome
    rw [ho, (hj.commit id body).mpr (.inl hbody)]
    rfl
  · rw [ha]
    exact (hj.attestation k a).mpr (.inl hk)

lemma WellGuarded.synced (h : WellGuarded s) {force : Bool}
    {report : VersionRepositorySyncReport Id}
    (hsync : applySyncPayload env cfg now p force s = .ok (report, s')) : Outcome call s s' := by
  obtain ⟨o, body, happ⟩ := applySyncPayload_applied hsync
  have hj := (join_ok happ.joined).2
  have hstored := happ.stored
  split at hstored
  · subst hstored
    exact h.still hj.branches rfl fun _ _ _ => carries_joined hj rfl rfl _
  obtain ⟨reflogs, -, ⟨⟩⟩ := bind_eq_ok.mp hstored
  refine h.moved p.branch ⟨p.target, body.tree⟩
    (congrArg (fun b => OrdMap.insert b _ _) hj.branches) rfl
    (fun id => carries_joined hj rfl rfl id) ?_ fun protection head hpro hh => ?_
  · rw [happ.found]
    rfl
  · obtain ⟨hallowed, hquorum⟩ :=
      authorizeBranchPublisher_ok.mp happ.authorized protection hpro
    refine ⟨hquorum, ?_, fun hne => .inl ⟨body, happ.found, hallowed hne⟩⟩
    -- A protected branch is not forced, so the pack advances it.
    rcases happ.advances with hforce | hadvance
    · rw [happ.unforced hforce] at hpro
      cases hpro
    · refine hadvance head.commitId ?_
      show (s.branches.get? p.branch).map _ = _
      rw [hh]
      rfl

lemma WellGuarded.collected (h : WellGuarded s) {l : Limits} {T : List (Candidate Id)}
    (hT : ∀ c ∈ T, s.Garbage l c) : Outcome call s (s.removeAll T) := by
  refine h.still (branches_removeAll ..) (protections_removeAll ..)
    fun branch head hhead => ?_
  have hretained : s.Retained l head.commitId :=
    (Objects.kept_head hhead (h.stored branch head hhead)).retained
  refine ⟨fun hsome => ?_, fun keys => ?_⟩
  · rw [get?_commits_retained hT hretained]
    exact hsome
  · refine Objects.trustedAttestationCount_mono fun keyId a hk => ?_
    exact (get?_attestations_retained (k := toLex (_, keyId)) hT hretained).trans hk

/-- An import finds an empty store, and brings no protection. -/
lemma protections_of_import {identity : VersionRepositoryIdentity} {objects : Objects Id}
    {report : VersionRepositoryBundleReport}
    (h : importBundle env cfg identity objects (some s) = .ok (report, s')) (branch : String) :
    s.protections.get? branch = none ∧ s'.protections.get? branch = none := by
  unfold importBundle openWithIdentity at h
  simp only [↓then_eq_ok, bind_eq_ok, refuseIf_eq_ok] at h
  obtain ⟨_, -, _, ⟨-, -, ⟨⟩⟩, hempty, -, _, -, ⟨⟩⟩ := h
  unfold isEmpty at hempty
  simp only [Bool.not_eq_true', Bool.not_eq_false, Bool.and_eq_true, List.isEmpty_iff] at hempty
  cases hp : s.protections.get? branch with
  | none => exact ⟨rfl, rfl⟩
  | some p =>
    have hmem := mem_entries.mpr hp
    rw [hempty.2] at hmem
    cases hmem

/-- **No call breaks a protection.** -/
theorem effect_outcome (h : WellGuarded s) (he : Effect cfg now call s s') : Outcome call s s' := by
  cases he with
  | stored hputs =>
    obtain ⟨-, hb, hp, ha, -, hc⟩ := hputs.refs
    exact h.still hb hp fun _ _ _ => .of_eq hc ha
  | published hputs _ hparent hpub => exact h.published hputs hparent hpub
  | @forwarded op _ source target hcall hf =>
    obtain ⟨hsource, hauth, -, reflogs, -, rfl⟩ := fastForwardBranch_ok hf.forwarded
    refine h.moved op.target source rfl rfl (fun _ => .of_eq rfl rfl)
      (h.stored _ _ hf.source_eq) fun p head hp hhead => ?_
    obtain ⟨hallowed, hquorum⟩ := authorizeBranchPublisher_ok.mp hauth p hp
    rw [hf.target_eq] at hhead
    cases hhead
    exact ⟨hquorum, hf.behind, fun hne => .inr ⟨op, hcall, hf.source_eq, hallowed hne⟩⟩
  | tagged _ ht =>
    obtain ⟨-, rfl⟩ := createTag_ok ht
    exact h.still rfl rfl fun _ _ _ => .of_eq rfl rfl
  | untagged ht =>
    obtain rfl := deleteTag_ok ht
    exact h.still rfl rfl fun _ _ _ => .of_eq rfl rfl
  | branched hc hb => exact h.set (createBranch_set hc hb)
  | @deleted name _ _ hb =>
    obtain ⟨hfree, -, reflogs, -, rfl⟩ := deleteBranch_ok hb
    -- a protected branch is not the one that is deleted
    have hne : ∀ {b : String} {p}, s.protections.get? b = some p → b ≠ name := by
      rintro b p hp rfl
      rw [hfree] at hp
      cases hp
    refine ⟨⟨fun b head hhead => h.stored b head (get?_of_get?_erase hhead),
      fun b p hp => ?_⟩, fun b p _ hp _ => ?_⟩
    · obtain ⟨head, hhead, hcount⟩ := h.guarded b p hp
      exact ⟨head, (get?_erase_of_ne _ (hne hp)).trans hhead, hcount⟩
    · obtain ⟨head, hhead, -⟩ := h.guarded b p hp
      exact ⟨head, head, hhead, (get?_erase_of_ne _ (hne hp)).trans hhead, .inl rfl⟩
  | reset hc hb => exact h.set (resetBranch_set hc hb)
  | recovered hb => exact h.set (recoverBranch_set hb)
  | @protection name isProtected policy _ reference _ hp =>
    obtain ⟨hhead, hquorum, rfl⟩ := setBranchProtected_ok hp
    refine ⟨⟨h.stored, fun b p hprotected => ?_⟩, fun b p _ hprotected _ => ?_⟩
    · unfold withProtection at hprotected
      cases isProtected with
      | false => exact h.guarded b p (get?_of_get?_erase hprotected)
      | true =>
        rcases of_get?_insert hprotected with ⟨rfl, rfl⟩ | hprotected
        · exact ⟨reference, hhead, hquorum rfl⟩
        · exact h.guarded b p hprotected
    · obtain ⟨head, hhead, -⟩ := h.guarded b p hprotected
      exact ⟨head, head, hhead, hhead, .inl rfl⟩
  | attested _ _ ha =>
    rcases putAttestation_ok ha with rfl | ⟨hnone, rfl⟩
    · exact h.still rfl rfl fun _ _ _ => .of_eq rfl rfl
    -- only a free key is taken, so every quorum stays
    refine h.still rfl rfl fun _ _ _ => .of_sub (fun hsome => hsome) fun k a hk => ?_
    refine (get?_insert_of_ne _ _ ?_).trans hk
    rintro rfl
    rw [hnone] at hk
    cases hk
  | pruned => exact h.still rfl rfl fun _ _ _ => .of_eq rfl rfl
  | collected _ hg =>
    obtain ⟨l, T, rfl, hT⟩ := garbageCollect_removes hg
    exact h.collected hT
  | synced _ hsync => exact h.synced hsync
  | imported _ himport =>
    obtain ⟨rfl, hportable, -⟩ := importBundle_ok himport
    -- nothing is protected before or after
    refine ⟨⟨fun b head hhead => ?_, fun b p hp => ?_⟩, fun b p _ hp => ?_⟩
    · obtain ⟨body, hbody, -⟩ := Objects.linkBranch_ok.mp (hportable.branch b head hhead)
      rw [hbody]
      rfl
    · rw [(protections_of_import himport b).2] at hp
      cases hp
    · rw [(protections_of_import himport b).1] at hp
      cases hp

/-- **A protected branch is guarded.** In every store that calls reach from an empty one, a branch
that is protected exists and its head has the required attestations; and a call that leaves it
protected leaves its head too, or moves it to a descendant for a committer that is allowed. -/
theorem protected_branch_guarded (P : Prolly env) (identity : VersionRepositoryIdentity)
    {s : Store Id} (h : Reached P (fun _ _ => True) (Store.empty identity) s) {branch : String}
    {p : VersionBranchProtection} (hp : s.protections.get? branch = some p) :
    Guarded s branch p ∧
      ∀ {cfg now} {call : RepositoryCall env} {r s' p'}, perform P cfg now call s = (r, s') →
        s'.protections.get? branch = some p' → Advances call s s' branch p := by
  have hs : WellGuarded s :=
    h.invariant ⟨nofun, nofun⟩ fun h _ hp =>
      (effect_outcome h (perform_effect hp)).guarded
  exact ⟨hs.guarded branch p hp, fun hperform hp' =>
    (effect_outcome hs (perform_effect hperform)).advances branch p _ hp hp'⟩

end

namespace Digest

/-- Only `ada` may publish, and two keys have to attest the head. -/
def twoKeys : VersionBranchProtection :=
  ⟨0, ["ada"], [], [keyUnder "a" 9, keyUnder "b" 7], 2⟩

def adaOnly : VersionBranchProtectionPolicy signing where
  allowedCommitters := twoKeys.allowedCommitters
  allowedManagers := twoKeys.allowedManagers
  trustedAttestationKeys := twoKeys.trustedAttestationKeys
  requiredAttestations := twoKeys.requiredAttestations
  normalized := ⟨_, normalize_two 7 (by decide)⟩
  required := by decide +kernel

/-- What the holder of a key attests of the commit. -/
def attestedBy (k : VersionTrustedAttestationKey) : VersionCommitAttestation where
  algorithm := .ed25519
  publicKey := k.publicKey
  signature := signatureOf k.publicKey
    ⟨oneCommit.identity.id, theCommit.id, k.keyId, .ed25519, k.publicKey, 0⟩
  createdAt := 0

/-- The calls that import a commit, attest it and protect its branch. -/
def protectCalls : List (RepositoryCall signing) :=
  .importBundle oneCommit.identity oneCommit.toObjects ::
    twoKeys.trustedAttestationKeys.map (fun k => .attest "main" k.keyId (attestedBy k)) ++
      [.setProtection "main" true adaOnly none]

def after (calls : List (RepositoryCall signing)) (s : Store Digest) : Store Digest :=
  calls.foldl (fun s call => (perform (.flat signing) (.unlimited []) 0 call s).2) s

lemma reached_after (calls : List (RepositoryCall signing)) {s₀ s : Store Digest}
    (h : Reached (.flat signing) (fun _ _ => True) s₀ s) :
    Reached (.flat signing) (fun _ _ => True) s₀ (after calls s) := by
  induction calls generalizing s with
  | nil => exact h
  | cons call calls ih => exact ih (h.call trivial (Prod.ext rfl rfl))

def protectedCommit : Store Digest := after protectCalls (Store.empty oneCommit.identity)

end Digest

open Digest in
theorem protected_commit_guarded : Guarded protectedCommit "main" twoKeys ∧
    ∀ {cfg now} {call : RepositoryCall signing} {r s' p'},
      perform (.flat signing) cfg now call protectedCommit = (r, s') →
      s'.protections.get? "main" = some p' → Advances call protectedCommit s' "main" twoKeys :=
  protected_branch_guarded (.flat signing) oneCommit.identity (reached_after protectCalls .start)
    (by decide +kernel)

end SlateFs.Version
