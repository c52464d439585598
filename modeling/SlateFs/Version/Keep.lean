import SlateFs.Version.Sweep
import SlateFs.Version.Quorum

/-!
# What a collection leaves intact

A sweep takes the garbage in key order, and the families of keys are not ordered by
who refers to whom: blobs go before the commits that need them, commits before the
idempotency records that name them, nodes last. A budget that runs out in between
leaves records that refer to deleted ones.

So the store is intact after a collection just when the cut is clean: whatever is
deleted takes along all that refers to it.
-/

namespace SlateFs.Version

open Worklist Objects

variable {Id : Type} [ObjectId Id]

namespace Store

variable {env : Env Id} {s : Store Id} {l : Limits}

/-- **Nothing is damaged**: the store verifies and exports, every commit has its whole tree, and
idempotency records and attestations name commits that exist. -/
structure Intact (env : Env Id) (s : Store Id) : Prop where
  verifies : ∃ r, s.verify env = .ok r
  exports : ∃ r, s.exportBundle env = .ok r
  nodes : ∀ c n, s.NodeOf (· = c) n → (s.nodes.get? n).isSome
  blobs : ∀ c b, s.BlobOf (· = c) b → (s.blobs.get? b).isSome
  idempotency : ∀ k r, s.idempotency.get? k = some r → (s.commits.get? r.commitId).isSome
  attestation : ∀ k a, s.attestations.get? k = some a → (s.commits.get? (ofLex k).1).isSome

/-- Which records refer to which. -/
inductive Refers (s : Store Id) : Candidate Id → Candidate Id → Prop where
  | blob {n : Id} {node : Node Id} {r : BlobRef Id} :
      s.nodes.get? n = some node → r ∈ node.blobRefs → Refers s (.node n) (.blob r.cid)
  | child {n m : Id} {node : Node Id} :
      s.nodes.get? n = some node → m ∈ node.children → Refers s (.node n) (.node m)
  | root {c r : Id} {body : VersionCommitBody Id} :
      s.commits.get? c = some body → body.tree = some r → Refers s (.commit c) (.node r)
  | attested {k : Id ×ₗ String} {a : VersionCommitAttestation} :
      s.attestations.get? k = some a →
      Refers s (.attestation (ofLex k).1 (ofLex k).2) (.commit (ofLex k).1)
  | replay {k : Id} {r : VersionCommitIdempotencyRecord Id} :
      s.idempotency.get? k = some r → Refers s (.idempotency k) (.commit r.commitId)

/-- **A clean cut**: whatever refers to a deleted record is deleted too, and so is every
idempotency record whose commit was missing. -/
structure CleanCut (s : Store Id) (l : Limits) (budget : Nat) : Prop where
  referrer : ∀ c d, s.Refers c d → s.Doomed l budget d → s.Doomed l budget c
  idempotency : ∀ k r, s.idempotency.get? k = some r →
    s.Doomed l budget (.idempotency k) ∨ (s.commits.get? r.commitId).isSome

/-! ## Verified stores can be collected -/

lemma Verified.head (h : Verified env s) {b : String} {head : VersionRef Id}
    (hb : s.branches.get? b = some head) : (s.commits.get? head.commitId).isSome := by
  obtain ⟨body, hbody, -⟩ := verifyBranch_ok.mp (h.branch b head hb)
  rw [hbody]
  rfl

variable {id : Id} {T : List (Candidate Id)}

lemma Verified.pinned (h : Verified env s) (hid : s.Pinned id) : (s.commits.get? id).isSome := by
  rcases hid with ⟨t, v, ht, rfl⟩ | hid
  · exact verifyTag_ok.mp (h.tag t v ht)
  · exact verifyReflog_ok.mp (h.reflog id hid)

lemma reach_of_kept {R : Id → Prop} (hR : ∀ b head, s.branches.get? b = some head → R head.commitId)
    (h : s.Kept l id) : Reach s.parents R id := by
  obtain ⟨b, head, p, body, hb, hl, -, -⟩ := h
  have ha : Reach s.parents R head.commitId := .root (hR b head hb)
  clear hb
  generalize head.commitId = a at hl ha
  induction hl with
  | here _ => exact ha
  | there hb _ hfirst _ ih => exact ih (.step ha (mem_follow.mpr ⟨_, hb, List.mem_of_head? hfirst⟩))

lemma reachable_of_kept (h : s.Kept l id) : s.Reachable id :=
  reach_of_kept (fun b head hb => mem_roots.mpr (.inl ⟨b, head, hb, rfl⟩)) h

lemma reachable_of_held (h : s.Held l id) : s.Reachable id := by
  unfold Objects.Held at h
  split at h
  · exact h.mem_of_closed (fun _ => reachable_of_kept) (fun _ _ hy hz => .step hy hz)
  · exact reachable_of_kept h

/-- **A collection of a verified store does not fail**, given steps for its loops. -/
theorem Verified.collectable (h : Verified env s) {n : Nat}
    (hn : ∀ b head, s.branches.get? b = some head →
      (s.lineage n (some head.commitId)).isSome) : s.Collectable n l := by
  refine ⟨⟨?_, fun id hid => .inr (h.pinned hid)⟩, ?_⟩
  · intro b head hb
    obtain ⟨⟨chain, stop⟩, hch⟩ := Option.isSome_iff_exists.mp (hn b head hb)
    refine ⟨chain, stop, hch, fun _ => ?_⟩
    cases stop with
    | none => rfl
    | some q =>
      obtain ⟨hmissing, hreach, hnil⟩ := lineage_stop hch
      refine checkStop_ok.mpr ⟨fun hempty => ?_, ?_⟩
      · have := h.head hb
        rw [Option.some.inj (hnil hempty), hmissing] at this
        cases this
      · have hq : s.Reachable q := hreach.mono
          (fun a ha => mem_roots.mpr (.inl ⟨b, head, hb, Option.some.inj ha⟩)) fun _ _ h => h
        rcases verifyCommit_isOk.mp (h.commit q hq) with ⟨body, hbody, -⟩ | ⟨-, hpruned⟩
        · rw [hmissing] at hbody
          cases hbody
        · exact hpruned
  · -- only what is reachable is retained
    refine fun id hid => h.node id (hid.mono fun _ h => ?_)
    exact h.2.elim reachable_of_held fun h => .root (mem_roots.mpr (.inr h))

/-! ## A clean cut leaves the store intact -/

section Clean

variable {T : List (Candidate Id)}

variable (hG : ∀ c ∈ T, s.Garbage l c) (hR : ∀ c d, s.Refers c d → d ∈ T → c ∈ T)
  (hp : Portable env s.identity s.toObjects)

section

include hG

lemma commits_head (hv : Verified env s) {b : String} {head : VersionRef Id}
    (hb : s.branches.get? b = some head) :
    (s.removeAll T).commits.get? head.commitId = s.commits.get? head.commitId :=
  get?_commits_retained hG (kept_head hb (hv.head hb)).retained

lemma commits_pinned (hv : Verified env s) {id : Id} (hid : s.Pinned id) :
    (s.removeAll T).commits.get? id = s.commits.get? id :=
  get?_commits_retained hG ⟨hv.pinned hid, .inr hid⟩

end

section

include hR

/-- The commit of an attestation that is left is left too. -/
lemma attested_left {k : Id ×ₗ String} {a : VersionCommitAttestation}
    (h : (s.removeAll T).attestations.get? k = some a) :
    s.attestations.get? k = some a ∧
      (s.removeAll T).commits.get? (ofLex k).1 = s.commits.get? (ofLex k).1 := by
  rw [get?_attestations_removeAll, Option.ite_none_left_eq_some] at h
  obtain ⟨hkT, h⟩ := h
  refine ⟨h, ?_⟩
  rw [get?_commits_removeAll, if_neg fun hcT => hkT (hR _ _ (.attested h) hcT)]

include hp

lemma root_left {c r : Id} {body : VersionCommitBody Id}
    (hc : (s.removeAll T).commits.get? c = some body) (hr : body.tree = some r) :
    ((s.removeAll T).nodes.get? r).isSome := by
  obtain ⟨hcT, hc⟩ := commits_sub hc
  rw [get?_nodes_removeAll, if_neg fun hrT => hcT (hR _ _ (.root hc hr) hrT)]
  exact (linkCommit_ok.mp (hp.commitLinks c body hc)).2.2 r hr

variable {node : Node Id}

lemma child_left {n m : Id} (hn : (s.removeAll T).nodes.get? n = some node)
    (hm : m ∈ node.children) :
    ((s.removeAll T).nodes.get? m).isSome := by
  obtain ⟨hnT, hn⟩ := nodes_sub hn
  rw [get?_nodes_removeAll, if_neg fun hmT => hnT (hR _ _ (.child hn hm) hmT)]
  exact (linkNode_ok.mp (hp.nodeLinks n node hn)).2 m hm

lemma blob_left {n : Id} {r : BlobRef Id} (hn : (s.removeAll T).nodes.get? n = some node)
    (hr : r ∈ node.blobRefs) :
    (s.removeAll T).blobs.get? r.cid = s.blobs.get? r.cid ∧
      ∃ bytes, s.blobs.get? r.cid = some bytes ∧ bytes.length = r.len := by
  obtain ⟨hnT, hn⟩ := nodes_sub hn
  rw [get?_blobs_removeAll, if_neg fun hbT => hnT (hR _ _ (.blob hn hr) hbT)]
  exact ⟨rfl, (linkNode_ok.mp (hp.nodeLinks n node hn)).1 r hr⟩

end

include hG hR hp

/-- **A clean cut leaves a portable store.** -/
theorem Portable.removeAll (hv : Verified env s) :
    Portable env (s.removeAll T).identity (s.removeAll T).toObjects := by
  refine ⟨⟨?_, fun id body h => hp.commit id body (commits_sub h).2, ?_, ?_, ?_, ?_, ?_, ?_⟩, ?_,
    fun k a h => hp.keyId k a (attested_left hR h).1,
    fun id node h => hp.node id node (nodes_sub h).2, ?_, ?_, ?_⟩
  · intro id bytes h
    rw [get?_blobs_removeAll, Option.ite_none_left_eq_some] at h
    exact hp.blob id bytes h.2
  · intro id body h
    obtain ⟨hT, hc⟩ := commits_sub h
    obtain ⟨hpruned, hparents, -⟩ := linkCommit_ok.mp (hp.commitLinks id body hc)
    refine linkCommit_ok.mpr ⟨?_, ?_, fun r hr => root_left hR hp h hr⟩
    · unfold isPrunedCommit at hpruned ⊢
      rwa [get?_pruned_removeAll, if_neg hT]
    intro q hq
    unfold isPrunedCommit
    rw [get?_commits_removeAll, get?_pruned_removeAll]
    by_cases hqT : .commit q ∈ T
    · exact .inr (by simp [hqT])
    · simp only [hqT, if_false]
      exact hparents q hq
  · intro n node h
    refine linkNode_ok.mpr ⟨?_, fun m hm => child_left hR hp h hm⟩
    intro r hr
    obtain ⟨heq, hblob⟩ := blob_left hR hp h hr
    rwa [heq]
  · intro k a h
    obtain ⟨ha, hc⟩ := attested_left hR h
    rw [linkAttestation_ok, hc, identity_removeAll]
    exact linkAttestation_ok.mp (hp.attestation k a ha)
  · intro b head hb
    rw [branches_removeAll] at hb
    rw [linkBranch_ok, commits_head hG hv hb]
    exact linkBranch_ok.mp (hp.branch b head hb)
  · intro t v ht
    rw [tags_removeAll] at ht
    rw [linkTag_ok, commits_pinned hG hv (.inl ⟨t, v, ht, rfl⟩)]
    exact linkTag_ok.mp (hp.tag t v ht)
  · intro k r hr id hid
    rw [reflogs_removeAll] at hr
    have hmem : id ∈ s.reflogCommitIds :=
      List.mem_flatMap.mpr ⟨(k, r), OrdMap.mem_entries.mpr hr, hid⟩
    rw [linkReflog_ok, commits_pinned hG hv (.inr hmem)]
    exact linkReflog_ok.mp (hp.reflog k r hr id hid)
  · rw [identity_removeAll]
    exact hp.identity_ok
  · rw [branches_removeAll]
    exact hp.branchName
  · rw [reflogs_removeAll]
    exact hp.reflogName
  · rw [tags_removeAll]
    exact hp.tagName

/-- **A clean cut leaves a verified store.** -/
theorem Verified.removeAll (hv : Verified env s) : Verified env (s.removeAll T) := by
  refine verified_of_linked (Portable.removeAll hG hR hp hv).toLinked fun b p hb => ?_
  rw [protections_removeAll] at hb
  refine verifyProtection_mono (by rw [branches_removeAll]) (fun k a hhead hk => ?_)
    (hv.protection b p hb)
  -- the attestations of a head are never garbage
  obtain ⟨head, hhead, hid⟩ := Option.map_eq_some_iff.mp hhead
  have hret := (kept_head (l := l) hhead (hv.head hhead)).retained
  rw [get?_attestations_retained hG (hid ▸ hret), hk]

end Clean

/-! ## A damaging cut -/

/-- A store that is intact after a sweep was cut cleanly. -/
lemma referrer_of_intact (h : Intact env (s.removeAll T)) {c d : Candidate Id}
    (hcd : s.Refers c d) (hd : d ∈ T) : c ∈ T := by
  obtain ⟨-, hp⟩ := export_ok_iff.mp h.exports
  by_contra hc
  -- the referring record is left, and what it refers to is not
  cases hcd with
  | @blob n node r hn hr =>
    obtain ⟨bytes, hb, -⟩ := (linkNode_ok.mp (hp.nodeLinks n node (by simp [hc, hn]))).1 r hr
    simp [hd] at hb
  | @child n m node hn hm =>
    have := (linkNode_ok.mp (hp.nodeLinks n node (by simp [hc, hn]))).2 m hm
    simp [hd] at this
  | @root c r body hb hr =>
    have := (linkCommit_ok.mp (hp.commitLinks c body (by simp [hc, hb]))).2.2 r hr
    simp [hd] at this
  | @attested k a ha =>
    have := h.attestation k a (by simp [hc, ha])
    simp [hd] at this
  | @replay k r hr =>
    have := h.idempotency k r (by simp [hc, hr])
    simp [hd] at this

/-- A portable store that verifies is intact but for its idempotency records. -/
lemma intact_of_portable (hv : Verified env s) (hp : Portable env s.identity s.toObjects)
    (hI : ∀ k r, s.idempotency.get? k = some r → (s.commits.get? r.commitId).isSome) :
    Intact env s := by
  refine ⟨verify_ok_iff.mpr hv, export_ok_iff.mpr ⟨hv, hp⟩,
    fun c n hn => node_of_linked hp.toLinked hn, ?_, hI,
    fun k a ha => (verifyAttestation_ok.mp (hv.attestation k a ha)).1⟩
  rintro c b ⟨n, node, r, hn, hget, hr, rfl⟩
  obtain ⟨bytes, hb, -⟩ := (linkNode_ok.mp (hp.nodeLinks n node hget)).1 r hr
  rw [hb]
  rfl

/-- What a clean cut leaves is intact. -/
lemma intact_of_clean (hv : Verified env s) (hp : Portable env s.identity s.toObjects)
    (hG : ∀ c ∈ T, s.Garbage l c) (hR : ∀ c d, s.Refers c d → d ∈ T → c ∈ T)
    (hI : ∀ k r, s.idempotency.get? k = some r →
      .idempotency k ∈ T ∨ (s.commits.get? r.commitId).isSome) :
    Intact env (s.removeAll T) := by
  refine intact_of_portable (Verified.removeAll hG hR hp hv) (Portable.removeAll hG hR hp hv) ?_
  intro k r hr
  rw [get?_idempotency_removeAll, Option.ite_none_left_eq_some] at hr
  obtain ⟨hkT, hr⟩ := hr
  rw [get?_commits_removeAll, if_neg fun hcT => hkT (hR _ _ (.replay hr) hcT)]
  exact (hI k r hr).resolve_left hkT

/-- **A collection leaves the store intact just when its cut is clean.** -/
theorem intact_collect_iff (hv : Verified env s) (hp : Portable env s.identity s.toObjects)
    {n b : Nat} {r : VersionGcReport} {s' : Store Id}
    (h : s.collect env n l false b = some (.ok (r, s'))) : Intact env s' ↔ s.CleanCut l b := by
  obtain ⟨k, cs, hm, -, rfl⟩ := collect_eq_ok.mp h
  have hmem : ∀ c, c ∈ cs.take b ↔ s.Doomed l b c := mem_taken hm
  constructor
  · intro hi
    refine ⟨fun c d hcd hd => ?_, fun k r hr => ?_⟩
    · exact (hmem c).mp (referrer_of_intact hi hcd ((hmem d).mpr hd))
    by_cases hk : .idempotency k ∈ cs.take b
    · exact .inl ((hmem _).mp hk)
    right
    have hleft := hi.idempotency k r (by rw [get?_idempotency_removeAll, if_neg hk, hr])
    obtain ⟨body, hbody⟩ := Option.isSome_iff_exists.mp hleft
    rw [(commits_sub hbody).2]
    rfl
  · intro hc
    refine intact_of_clean hv hp (fun c hmem' => ((hmem c).mp hmem').1) ?_ ?_
    · exact fun c d hcd hd => (hmem c).mpr (hc.referrer c d hcd ((hmem d).mp hd))
    · exact fun k r hr => (hc.idempotency k r hr).imp_left (hmem _).mpr

/-- **After a collection of a repository that verifies and exports, nothing is damaged just when
the budget does not cut between a record and those that refer to it.** -/
theorem gc_intact_iff (env : Env Id) (s : Store Id) (n now : Nat)
    (keepLast maxAgeSecs maxDeletions : Option Nat) (hv : ∃ r, s.verify env = .ok r)
    (he : ∃ r, s.exportBundle env = .ok r)
    (hb : 0 < maxDeletions.getD DEFAULT_GC_MAX_DELETIONS ∧
      maxDeletions.getD DEFAULT_GC_MAX_DELETIONS ≤ MAX_GC_MAX_DELETIONS)
    (hn : ∀ b head, s.branches.get? b = some head →
      (s.lineage n (some head.commitId)).isSome) :
    ∃ r s', s.garbageCollect env n now keepLast maxAgeSecs false maxDeletions = some (.ok (r, s')) ∧
      (Intact env s' ↔ s.CleanCut ⟨keepLast, maxAgeSecs.map (now - ·)⟩
        (maxDeletions.getD DEFAULT_GC_MAX_DELETIONS)) := by
  have hver := verify_ok_iff.mp hv
  obtain ⟨-, hport⟩ := export_ok_iff.mp he
  obtain ⟨⟨k, cs⟩, hm⟩ :=
    mark_ok_iff.mpr (hver.collectable hn)
  have hc := collect_eq_ok (b := maxDeletions.getD DEFAULT_GC_MAX_DELETIONS).mpr
    ⟨k, cs, hm, rfl, rfl⟩
  have hgc : s.garbageCollect env n now keepLast maxAgeSecs false maxDeletions
      = s.collect env n ⟨keepLast, maxAgeSecs.map (now - ·)⟩ false
          (maxDeletions.getD DEFAULT_GC_MAX_DELETIONS) := by
    exact if_neg (by omega)
  exact ⟨_, _, hgc.trans hc, intact_collect_iff hver hport hc⟩

end Store

namespace Digest

/-- Three commits on `main`, and a reflog that remembers the last two. -/
def initial : VersionCommitBody Digest := commitOf [] 1 10

def middle : VersionCommitBody Digest := commitOf [idOf initial] 2 20

def latest : VersionCommitBody Digest := commitOf [idOf middle] 3 30

def threeCommits : Store Digest :=
  storeOf [1, 2, 3] [initial, middle, latest] [("main", latest)]
    [(toLex ("main", 3), ⟨some (idOf middle), some (idOf latest), .commit, 30⟩)] []

lemma threeCommits_verifies : ∃ r, threeCommits.verify env = .ok r :=
  ⟨⟨3, 0, 3, 3⟩, by decide +kernel⟩

lemma threeCommits_exports : ∃ r, threeCommits.exportBundle env = .ok r := by
  refine Store.export_ok_iff.mpr ⟨Store.verify_ok_iff.mp threeCommits_verifies, ?_⟩
  exact validate_ok_iff.mp ⟨⟨3, 0, 0, 3, 3, 1, 0, 1⟩, by decide +kernel⟩

lemma threeCommits_lines : ∀ b head, threeCommits.branches.get? b = some head →
    (threeCommits.lineage 4 (some head.commitId)).isSome := by
  intro b head hb
  have hmain : ∀ e ∈ threeCommits.branches.entries,
      (threeCommits.lineage 4 (some e.2.commitId)).isSome := by decide +kernel
  exact hmain (b, head) (OrdMap.mem_entries.mpr hb)

/-- The same history, collected with room for everything. -/
theorem threeCommits_intact :
    ∃ r s', threeCommits.garbageCollect env 4 40 (some 1) none false (some 100) =
        some (.ok (r, s')) ∧
      Store.Intact env s' ∧ threeCommits.CleanCut ⟨some 1, none⟩ 100 := by
  obtain ⟨r, s', hgc, hiff⟩ := Store.gc_intact_iff env threeCommits 4 40 (some 1) none (some 100)
    threeCommits_verifies threeCommits_exports (by decide) threeCommits_lines
  have hleft : (collected (threeCommits.garbageCollect env 4 40 (some 1) none false (some 100))).all
      (fun s => (s.exportBundle env).toOption.any (fun _ => true) &&
        s.idempotency.entries.isEmpty) = true := by
    decide +kernel
  rw [hgc] at hleft
  simp only [collected, Option.all_some, Bool.and_eq_true, List.isEmpty_iff] at hleft
  have hintact : Store.Intact env s' := by
    obtain ⟨r, hr, -⟩ := exists_ok_of_any hleft.1
    obtain ⟨hv, hp⟩ := Store.export_ok_iff.mp ⟨r, hr⟩
    refine Store.intact_of_portable hv hp fun k r hr => ?_
    rw [OrdMap.eq_empty_of_entries hleft.2] at hr
    cases hr
  exact ⟨r, s', hgc, hintact, hiff.mp hintact⟩

/-- Keeping one commit with room for one deletion takes the blob of a commit that stays: the
store no longer verifies. -/
theorem one_deletion_damages :
    (∃ r, threeCommits.verify env = .ok r) ∧ (∃ r, threeCommits.exportBundle env = .ok r) ∧
      ∃ s', collected (threeCommits.garbageCollect env 4 40 (some 1) none false (some 1)) =
        some s' ∧
        s'.verify env =
          .error (.versioning s!"missing reachable blob {hex (env.blobDigest [1])}") := by
  refine ⟨threeCommits_verifies, threeCommits_exports, Option.map_eq_some_iff.mp ?_⟩
  decide +kernel

end Digest

end SlateFs.Version
