import SlateFs.Version.Quorum
import SlateFs.Version.Sync

/-!
# When a sync pack is accepted

The sender leaves out everything that the receiver's head reaches in the sender's own
copy. The receiver may have less: a garbage collection may have pruned commits, nodes
and blobs behind its head, and the new head may need them again. It may also hold
records that nothing reaches and that refer to records already collected; the check of
the whole then fails, whatever the pack brings.

So a pack is accepted just if all that the receiver holds or is sent is complete
(`Complete`). What is then read on both sides is the same if the chunk sizes are, or if
the files are short.
-/

namespace SlateFs.Version

open OrdMap Worklist Objects SlateFs.Version.Store

section

variable {Id : Type} [ObjectId Id] {env : Env Id}

/-- No commit is behind itself: a digest is made after those it is made of. -/
def Env.Ranked (env : Env Id) : Prop :=
  ∃ rank : Id → Nat, ∀ body, ∀ q ∈ body.parents, rank q < rank (env.commitDigest body)

/-! ## What the receiver holds or is sent -/

section

variable (s d : Objects Id) (target : Id) (expected : Option Id)

def HoldsCommit (id : Id) (body : VersionCommitBody Id) : Prop :=
  d.commits.get? id = some body ∨ s.Sends target expected id ∧ s.commits.get? id = some body

def HoldsNode (id : Id) (node : Node Id) : Prop :=
  d.nodes.get? id = some node ∨ s.SendsNode target expected id ∧ s.nodes.get? id = some node

def HoldsBlob (id : Id) (bytes : Bytes) : Prop :=
  d.blobs.get? id = some bytes ∨ s.SendsBlob target expected id ∧ s.blobs.get? id = some bytes

/-- A commit that is known to be pruned, and not held. -/
def HoldsMarker (id : Id) : Prop :=
  d.isPrunedCommit id = true ∧ (¬ s.Sends target expected id ∨ s.commits.get? id = none) ∨
    s.Sends target expected id ∧ s.isPrunedCommit id = true ∧
      ∀ body, ¬ HoldsCommit s d target expected id body

end

/-- **Nothing is missing**: every record that the receiver holds or is sent is in order and
refers only to records that it holds or is sent, or to pruned commits; and attestations do not
contradict one another. -/
structure Complete (env : Env Id) (s d : Store Id) (target : Id) (expected : Option Id) :
    Prop where
  identity_ok : validateVersionRepositoryIdentity d.identity = .ok ()
  branchName : ∀ b h, d.branches.get? b = some h → validateVersionBranchName b = .ok ()
  reflogName : ∀ k r, d.reflogs.get? k = some r → validateVersionBranchName (ofLex k).1 = .ok ()
  tagName : ∀ t v, d.tags.get? t = some v → validateVersionTagName t = .ok ()
  blob : ∀ id bytes, HoldsBlob s.toObjects d.toObjects target expected id bytes →
    bundleBlob env id bytes = .ok ()
  commit : ∀ id body, HoldsCommit s.toObjects d.toObjects target expected id body →
    bundleCommit env id body = .ok ()
  node : ∀ id node, HoldsNode s.toObjects d.toObjects target expected id node →
    bundleNode env id node = .ok ()
  unmarked : ∀ id body, HoldsCommit s.toObjects d.toObjects target expected id body →
    ¬ HoldsMarker s.toObjects d.toObjects target expected id
  parent : ∀ id body, HoldsCommit s.toObjects d.toObjects target expected id body →
    ∀ q ∈ body.parents, (∃ b, HoldsCommit s.toObjects d.toObjects target expected q b) ∨
      HoldsMarker s.toObjects d.toObjects target expected q
  root : ∀ id body r, HoldsCommit s.toObjects d.toObjects target expected id body →
    body.tree = some r → ∃ n, HoldsNode s.toObjects d.toObjects target expected r n
  child : ∀ id node, HoldsNode s.toObjects d.toObjects target expected id node →
    ∀ c ∈ node.children, ∃ n, HoldsNode s.toObjects d.toObjects target expected c n
  blobRef : ∀ id node, HoldsNode s.toObjects d.toObjects target expected id node →
    ∀ r ∈ node.blobRefs, ∃ bytes,
      HoldsBlob s.toObjects d.toObjects target expected r.cid bytes ∧ bytes.length = r.len
  attestation : ∀ k a b, d.attestations.get? k = some a → s.attestations.get? k = some b →
    (s.Sends target expected (ofLex k).1 ∨ (ofLex k).1 = target) → a = b

section

variable {s d : Store Id} {branch : String} {target : Id} {expected : Option Id}
  {p : VersionRepositorySyncPayload Id} {o : Objects Id}
variable {id : Id}

section

variable (hj : Joined d.toObjects p o) (hp : Pack s branch target expected p)
include hj hp

lemma Joined.holdsCommit {body : VersionCommitBody Id} :
    o.commits.get? id = some body ↔
      HoldsCommit s.toObjects d.toObjects target expected id body := by
  rw [hj.commit, hp.commit]
  exact Iff.rfl

lemma Joined.holdsNode {node : Node Id} :
    o.nodes.get? id = some node ↔ HoldsNode s.toObjects d.toObjects target expected id node := by
  rw [hj.node, hp.node]
  exact Iff.rfl

lemma Joined.holdsBlob {bytes : Bytes} :
    o.blobs.get? id = some bytes ↔ HoldsBlob s.toObjects d.toObjects target expected id bytes := by
  rw [hj.blob, hp.blob]
  exact Iff.rfl

lemma Joined.holdsMarker :
    o.isPrunedCommit id = true ↔ HoldsMarker s.toObjects d.toObjects target expected id := by
  have hnone : o.commits.get? id = none ↔
      ∀ body, ¬ HoldsCommit s.toObjects d.toObjects target expected id body := by
    rw [Option.eq_none_iff_forall_ne_some]
    exact forall_congr' fun body => not_congr (hj.holdsCommit hp)
  have hunsent : p.commits.get? id = none ↔
      ¬ s.Sends target expected id ∨ s.commits.get? id = none := by
    rw [Option.eq_none_iff_forall_ne_some, Option.eq_none_iff_forall_ne_some, ← not_exists,
      ← not_exists, ← not_and_or]
    refine not_congr ?_
    simp only [hp.commit, exists_and_left]
  rw [hj.pruned, hp.pruned, hnone, hunsent]
  refine or_congr_right
    ⟨fun ⟨⟨h1, _, h2⟩, h3⟩ => ⟨h1, h2, h3⟩, fun ⟨h1, h2, h3⟩ => ⟨⟨h1, ?_, h2⟩, h3⟩⟩
  -- A commit that the sender has would be sent.
  cases hc : s.commits.get? id with
  | none => rfl
  | some body => exact absurd (.inr ⟨h1, hc⟩) (h3 body)

end

lemma isSome_iff_holds {α : Type} {o : Option α} {H : α → Prop} (h : ∀ a, o = some a ↔ H a) :
    o.isSome ↔ ∃ a, H a := by
  rw [Option.isSome_iff_exists]
  exact exists_congr h

lemma keyId_of_verify {repositoryId keyId : String} {commit : Id} {a : VersionCommitAttestation}
    (h : verifyVersionCommitAttestation env repositoryId commit keyId a = .ok ()) :
    validateVersionAttestationKeyId keyId = .ok () := by
  unfold verifyVersionCommitAttestation at h
  split at h
  · cases h
  rename_i hv
  unfold validateVersionAttestation at hv
  split at hv
  · cases hv
  · assumption

/-- **The whole is portable just if nothing is missing.** -/
theorem portable_iff_complete (hs : Store.Verified env s) (hd : Store.Verified env d)
    (hid : s.identity = d.identity) (hj : Joined d.toObjects p o)
    (hp : Pack s branch target expected p) (ha : OrdMap.Agree d.attestations p.attestations)
    (htarget : ∃ body, HoldsCommit s.toObjects d.toObjects target expected target body) :
    Portable env d.identity o ↔ Complete env s d target expected := by
  have hcommit := fun id => isSome_iff_holds fun body =>
    (hj.holdsCommit hp : o.commits.get? id = some body ↔ _)
  have hnode := fun id => isSome_iff_holds fun n => (hj.holdsNode hp : o.nodes.get? id = some n ↔ _)
  -- What links a commit or a node, in terms of what is held.
  have hlinks := fun id (body : VersionCommitBody Id) =>
    (linkCommit_ok : o.linkCommit id body = _ ↔ _)
  simp only [hcommit, hnode, ← Bool.not_eq_true, hj.holdsMarker hp] at hlinks
  have hrefs := fun id (node : Node Id) => (linkNode_ok : o.linkNode id node = _ ↔ _)
  simp only [hj.holdsBlob hp, hnode] at hrefs
  constructor
  · intro h
    have hc := fun id body hc =>
      (hlinks id body).mp (h.commitLinks id body ((hj.holdsCommit hp).mpr hc))
    have hn := fun id n hn => (hrefs id n).mp (h.nodeLinks id n ((hj.holdsNode hp).mpr hn))
    refine ⟨h.identity_ok, fun b v hb => h.branchName b v (by rw [hj.branches]; exact hb),
      fun k r hr => h.reflogName k r (by rw [hj.reflogs]; exact hr),
      fun t v ht => h.tagName t v (by rw [hj.tags]; exact ht),
      fun id bytes hb => h.blob id bytes ((hj.holdsBlob hp).mpr hb),
      fun id body hc => h.commit id body ((hj.holdsCommit hp).mpr hc),
      fun id n hn => h.node id n ((hj.holdsNode hp).mpr hn), fun id body h => (hc id body h).1,
      fun id body h => (hc id body h).2.1, fun id body r h => (hc id body h).2.2 r,
      fun id n h => (hn id n h).2, fun id n h => (hn id n h).1, ?_⟩
    · intro k a b hka hkb hsent
      refine ha k a b hka ((hp.attestation k b).mpr ⟨hsent.imp_left fun h' => ⟨h', ?_⟩, hkb⟩)
      exact (verifyAttestation_ok.mp (hs.attestation k b hkb)).1
  · intro h
    have hold : ∀ id, (d.commits.get? id).isSome → (o.commits.get? id).isSome := by
      intro id hc
      obtain ⟨body, hb⟩ := Option.isSome_iff_exists.mp hc
      exact Option.isSome_iff_exists.mpr ⟨body, (hj.commit _ _).mpr (.inl hb)⟩
    -- An attestation was verified where it comes from, and its commit is held or sent.
    have hatt : ∀ k a, o.attestations.get? k = some a → (o.commits.get? (ofLex k).1).isSome ∧
        verifyVersionCommitAttestation env d.identity.id (ofLex k).1 (ofLex k).2 a = .ok () := by
      intro k a hk
      rcases (hj.attestation k a).mp hk with hk | hk
      · obtain ⟨hc, hv⟩ := verifyAttestation_ok.mp (hd.attestation k a hk)
        exact ⟨hold _ hc, hv⟩
      · obtain ⟨hsent, hk⟩ := (hp.attestation k a).mp hk
        obtain ⟨-, hv⟩ := verifyAttestation_ok.mp (hs.attestation k a hk)
        rw [hid] at hv
        refine ⟨(hcommit _).mpr ?_, hv⟩
        rcases hsent with ⟨hsent, hc⟩ | htag
        · obtain ⟨body, hb⟩ := Option.isSome_iff_exists.mp hc
          exact ⟨body, .inr ⟨hsent, hb⟩⟩
        · rw [htag]
          exact htarget
    refine ⟨⟨fun id bytes hb => h.blob id bytes ((hj.holdsBlob hp).mp hb),
      fun id body hc => h.commit id body ((hj.holdsCommit hp).mp hc), ?_, ?_,
      fun k a hk => linkAttestation_ok.mpr (hatt k a hk), ?_, ?_, ?_⟩, h.identity_ok,
      fun k a hk => keyId_of_verify (hatt k a hk).2,
      fun id n hn => h.node id n ((hj.holdsNode hp).mp hn), ?_, ?_, ?_⟩
    · intro id body hc
      have hc := (hj.holdsCommit hp).mp hc
      exact (hlinks id body).mpr
        ⟨h.unmarked id body hc, h.parent id body hc, fun r => h.root id body r hc⟩
    · intro id n hn
      have hn := (hj.holdsNode hp).mp hn
      exact (hrefs id n).mpr ⟨h.blobRef id n hn, h.child id n hn⟩
    · rw [hj.branches]
      intro b v hv
      obtain ⟨body, hc, ht⟩ := verifyBranch_ok.mp (hd.branch b v hv)
      exact linkBranch_ok.mpr ⟨body, (hj.commit _ _).mpr (.inl hc), ht⟩
    · rw [hj.tags]
      intro t v hv
      exact linkTag_ok.mpr (hold _ (verifyTag_ok.mp (hd.tag t v hv)))
    · rw [hj.reflogs]
      intro k r hr id hmem
      refine linkReflog_ok.mpr (hold _ (verifyReflog_ok.mp (hd.reflog id ?_)))
      exact List.mem_flatMap.mpr ⟨(k, r), mem_entries.mpr hr, hmem⟩
    · rw [hj.branches]
      exact h.branchName
    · rw [hj.reflogs]
      exact h.reflogName
    · rw [hj.tags]
      exact h.tagName

end

/-! ## A receiver that is behind -/

/-- A source and a receiver of one repository. The head of the branch at the source, `tip`,
descends from the receiver's. -/
structure Behind (env : Env Id) (s d : Store Id) (branch : String) (tip head : VersionRef Id) :
    Prop where
  source_ok : Store.Verified env s
  receiver_ok : Store.Verified env d
  source_addressed : Addressed env s
  receiver_addressed : Addressed env d
  same : s.identity = d.identity
  tip_eq : s.branches.get? branch = some tip
  head_eq : d.branches.get? branch = some head
  descends : s.Ancestor head.commitId tip.commitId

section

variable {s d : Store Id} {branch : String} {tip head : VersionRef Id}
  {p : VersionRepositorySyncPayload Id} {o : Objects Id}

namespace Behind

variable {id : Id} {rank : Id → Nat} {body : VersionCommitBody Id}

variable (h : Behind env s d branch tip head)
include h

lemma reachable (hid : s.Ancestor id tip.commitId) : s.Reachable id := by
  refine hid.mono (fun y hy => ?_) (fun _ _ hz => hz)
  subst hy
  exact mem_roots.mpr (.inl ⟨branch, tip, h.tip_eq, rfl⟩)

/-- Trees of commits that the source's head reaches can be marked. -/
lemma marks {ids : List Id} {C : Id → Prop} (hids : ∀ id, id ∈ ids ↔ C id)
    (hC : ∀ id, C id → s.Ancestor id tip.commitId) :
    ∃ nodes blobs, env.markReachable s.nodes (s.treesOf ids) = .ok nodes ∧
      env.markReachableBlobs s.nodes (s.treesOf ids) = .ok blobs := by
  have hnodes : ∃ nodes, env.markReachable s.nodes (s.treesOf ids) = .ok nodes := by
    refine env.marks_iff.mpr fun n hn => ?_
    rw [treesOf, inTrees_eq hids] at hn
    exact h.source_ok.node n (NodeOf.mono (fun c hc => h.reachable (hC c hc)) hn)
  obtain ⟨nodes, hnodes⟩ := hnodes
  obtain ⟨blobs, hblobs⟩ := env.marks_blobs hnodes
  exact ⟨nodes, blobs, hnodes, hblobs⟩

/-- **A verified source can make its pack.** -/
theorem export_isOk (hname : validateVersionBranchName branch = .ok ()) :
    ∃ p report, s.exportSync env branch (some head.commitId) = .ok (p, report) := by
  have hhistory : ∀ start, s.Ancestor start tip.commitId →
      ∃ ids, s.reachableSyncHistory start = .ok ids := by
    intro start hstart
    refine reachableSyncHistory_isOk.mpr fun id hid => ?_
    rcases verifyCommit_isOk.mp (h.source_ok.commit id (h.reachable (hid.trans hstart)))
      with ⟨body, hb, -⟩ | ⟨-, hp⟩
    · exact .inl (by rw [hb]; rfl)
    · exact .inr hp
  obtain ⟨source, hsource⟩ := hhistory _ (.root rfl)
  obtain ⟨remote, hremote⟩ : ∃ remote, s.remoteHistory (some head.commitId) = .ok remote := by
    simp only [remoteHistory]
    split
    · exact hhistory _ h.descends
    · exact ⟨[], rfl⟩
  have hs := fun id => (mem_reachableSyncHistory hsource : id ∈ source ↔ _)
  have hr := fun id => (mem_remoteHistory hremote : id ∈ remote ↔ _)
  obtain ⟨nodes, blobs, hnodes, hblobs⟩ := h.marks hs fun _ hid => hid
  obtain ⟨nodes', blobs', hnodes', hblobs'⟩ := h.marks hr (by
    rintro _ ⟨_, ⟨⟩, _, hid⟩
    exact hid.trans h.descends)
  obtain ⟨sent, hsent⟩ : ∃ sent, s.sendBlobs (insertAll ∅ (((blobs.map (·.cid)).filter
      fun id => id ∉ blobs'.map (·.cid)).map (·, ()))) = .ok sent := by
    refine ⟨_, sendBlobs_ok.mpr ⟨fun id hid => ?_, rfl⟩⟩
    obtain ⟨n, node, r, hn, hget, hmem, rfl⟩ := (mem_blobs_eq hs hblobs).mp
      (List.mem_filter.mp (get?_unitSet.mp hid)).1
    obtain ⟨bytes, hb, -⟩ := verifyBlob_ok.mp (h.source_ok.blob n node
      (NodeOf.mono (fun c hc => h.reachable hc) hn) hget r hmem)
    rw [hb]
    rfl
  unfold exportSync
  simp only [↓then_eq_ok, bind_eq_ok]
  exact ⟨_, _, hname, tip, okOr_eq_ok.mpr h.tip_eq, source, hsource, remote, hremote, nodes, hnodes,
    nodes', hnodes', _, hblobs, _, hblobs', sent, hsent, rfl⟩

section

variable
  (hrank : ∀ body : VersionCommitBody Id, ∀ q ∈ body.parents, rank q < rank (env.commitDigest body))
include hrank

/-- Along parents the rank falls. -/
lemma rank_lt {x y : Id} (hy : y ∈ s.parents x) : rank y < rank x := by
  obtain ⟨body, hb, hy⟩ := mem_follow.mp hy
  rw [← h.source_addressed.commit x body hb]
  exact hrank body y hy

lemma rank_le {a c : Id} (hac : s.Ancestor a c) : a = c ∨ rank a < rank c := by
  refine hac.mem_of_closed (S := fun a => a = c ∨ rank a < rank c) (fun _ hy => .inl hy)
    fun x y hx hy => .inr ?_
  have := h.rank_lt hrank hy
  rcases hx with rfl | hx <;> omega

end

/-- **The pack has every commit between the receiver's head and the source's.** -/
theorem ancestor_joined (hranked : env.Ranked) (hj : Joined d.toObjects p o)
    (hp : Pack s branch tip.commitId (some head.commitId) p) :
    o.Ancestor head.commitId tip.commitId := by
  obtain ⟨rank, hrank⟩ := hranked
  suffices ∀ x, s.Ancestor x tip.commitId → s.Ancestor head.commitId x →
      o.Ancestor x tip.commitId from this _ h.descends (.root rfl)
  intro x hx
  induction hx with
  | root hx => exact fun _ => .root hx
  | @step x y hx hy ih =>
    intro hhead
    -- The commit above `y` is not behind the receiver's head, so it is sent.
    have hup : s.Ancestor head.commitId x := hhead.trans (.step (.root rfl) hy)
    refine .step (ih hup) ?_
    obtain ⟨body, hb, hmem⟩ := mem_follow.mp hy
    have hsends : s.Sends tip.commitId (some head.commitId) x := by
      refine ⟨hx, ?_⟩
      rintro ⟨_, ⟨⟩, -, hback⟩
      have hfall := h.rank_lt hrank hy
      rcases h.rank_le hrank hhead with rfl | h1
      · rcases h.rank_le hrank hback with rfl | h2 <;> omega
      · rcases h.rank_le hrank hback with rfl | h2 <;> omega
    have hsent := (hj.commit x body).mpr (.inr ((hp.commit x body).mpr ⟨hsends, hb⟩))
    exact mem_follow.mpr ⟨body, hsent, hmem⟩

/-- The source's head is held by the receiver, or sent. -/
lemma holds_tip (hranked : env.Ranked) :
    ∃ body, HoldsCommit s.toObjects d.toObjects tip.commitId (some head.commitId) tip.commitId
      body := by
  obtain ⟨rank, hrank⟩ := hranked
  obtain ⟨body, hb, -⟩ := verifyBranch_ok.mp (h.source_ok.branch _ _ h.tip_eq)
  by_cases hk : s.Known (some head.commitId) tip.commitId
  · obtain ⟨_, ⟨⟩, -, hk⟩ := hk
    have heq : tip.commitId = head.commitId := by
      rcases h.rank_le hrank hk with heq | h1
      · exact heq
      rcases h.rank_le hrank h.descends with heq | h2
      · exact heq.symm
      · omega
    obtain ⟨body', hb', -⟩ := verifyBranch_ok.mp (h.receiver_ok.branch _ _ h.head_eq)
    rw [heq]
    exact ⟨body', .inl hb'⟩
  · exact ⟨body, .inr ⟨⟨.root rfl, hk⟩, hb⟩⟩

lemma agreeing (hinj : env.Injective) (hp : Pack s branch tip.commitId (some head.commitId) p)
    (hc : Complete env s d tip.commitId (some head.commitId)) : Agreeing d.toObjects p where
  attestation k a b hka hkb := by
    obtain ⟨hsent, hkb⟩ := (hp.attestation k b).mp hkb
    exact hc.attestation k a b hka hkb (hsent.imp_left (·.1))
  blob id a b ha hb := by
    have hb := (hp.blob id b).mp hb
    exact hinj.blob ((bundleBlob_digest (hc.blob id a (.inl ha))).trans
      (bundleBlob_digest (hc.blob id b (.inr hb))).symm)
  commit id a b ha hb := by
    have hb := ((hp.commit id b).mp hb).2
    exact hinj.commit ((h.receiver_addressed.commit id a ha).trans
      (h.source_addressed.commit id b hb).symm)
  node id a b ha hb := by
    have hb := ((hp.node id b).mp hb).2
    exact hinj.node ((h.receiver_addressed.node id a ha).trans
      (h.source_addressed.node id b hb).symm)

/-- What the receiver reads of the source's head, if the records were joined. -/
lemma same_nodes (hinj : env.Injective) (hportable : Portable env d.identity o)
    (hb : o.commits.get? tip.commitId = some body) (hs : s.commits.get? tip.commitId = some body)
    (hid : Reach (childrenOf s.nodes.get?) (body.tree = some ·) id) :
    ∃ node, s.nodes.get? id = some node ∧ o.nodes.get? id = some node ∧
      s.NodeOf s.Reachable id := by
  -- A node that both have is the same, by its digest.
  have hboth : ∀ id, s.NodeOf s.Reachable id → (o.nodes.get? id).isSome →
      ∃ node, s.nodes.get? id = some node ∧ o.nodes.get? id = some node ∧
        s.NodeOf s.Reachable id := by
    intro id hnode ho
    obtain ⟨n, hn⟩ := Option.isSome_iff_exists.mp (h.source_ok.node id hnode)
    obtain ⟨n', hn'⟩ := Option.isSome_iff_exists.mp ho
    have : n = n' := hinj.node ((h.source_addressed.node id n hn).trans
      (bundleNode_digest (hportable.node id n' hn')).symm)
    subst this
    exact ⟨n, hn, hn', hnode⟩
  refine hid.mem_of_closed (S := fun id => ∃ node, s.nodes.get? id = some node ∧
    o.nodes.get? id = some node ∧ s.NodeOf s.Reachable id) (fun r hr => ?_) fun x y hx hy => ?_
  · refine hboth r (.root ⟨tip.commitId, body, h.reachable (.root rfl), hs, hr⟩) ?_
    exact (linkCommit_ok.mp (hportable.commitLinks _ _ hb)).2.2 r hr
  obtain ⟨node, hsx, hox, hnode⟩ := hx
  unfold childrenOf at hy
  rw [hsx] at hy
  exact hboth y (.step hnode (mem_follow.mpr ⟨node, hsx, hy⟩))
    ((linkNode_ok.mp (hportable.nodeLinks x node hox)).2 y hy)

/-- **Both sides read the same files in the source's head**, at one chunk size. -/
theorem readTree_joined (hinj : env.Injective) {P : Prolly env} {m : Contents Id}
    (hload : P.load s.nodes.get? tip.tree = .ok m) (hportable : Portable env d.identity o)
    (hb : o.commits.get? tip.commitId = some body) (chunkSize : Nat) :
    readTree P chunkSize o tip.tree = readTree P chunkSize s.toObjects tip.tree := by
  obtain ⟨body', hs, htree⟩ := verifyBranch_ok.mp (h.source_ok.branch _ _ h.tip_eq)
  have hbody : body' = body := by
    have hok := hportable.commit _ _ hb
    exact hinj.commit ((h.source_addressed.commit _ _ hs).trans (bundleCommit_digest hok).symm)
  subst hbody
  rw [htree] at hload ⊢
  have hnodes := fun id (hid : Reach _ _ id) => h.same_nodes hinj hportable hb hs hid
  refine readTree_congr chunkSize hload (fun id hid => ?_) fun id node hid hn r hr => ?_
  · obtain ⟨node, hsn, hon, -⟩ := hnodes id hid
    rw [hsn, hon]
  obtain ⟨node', hsn, hon, hreach⟩ := hnodes id hid
  rw [hn] at hsn
  cases hsn
  obtain ⟨bytes, hget, hdigest, hlen⟩ :=
    verifyBlob_ok.mp (h.source_ok.blob id node hreach hn r hr)
  obtain ⟨bytes', hget', hlen'⟩ := (linkNode_ok.mp (hportable.nodeLinks id node hon)).1 r hr
  have hsame : bytes' = bytes := by
    refine hinj.blob (Eq.trans ?_ hdigest.symm)
    exact bundleBlob_digest (hportable.blob _ _ hget')
  subst hsame
  unfold getBlob
  rw [hget, hget']

end Behind

variable {body : VersionCommitBody Id} {cfg : SyncSettings Id} {now : Nat} {force : Bool}
  {d' : Store Id}

/-- Moving a branch keeps records portable. -/
lemma Portable.moved {identity : VersionRepositoryIdentity} (h : Portable env identity o)
    {reference : VersionRef Id} {reflogs : OrdMap (String ×ₗ Nat) (VersionReflogRecord Id)}
    (hname : validateVersionBranchName branch = .ok ())
    (hbody : o.commits.get? reference.commitId = some body) (htree : reference.tree = body.tree)
    (hlogs : ∀ k r, reflogs.get? k = some r → o.reflogs.get? k = some r ∨
      (ofLex k).1 = branch ∧ ∀ id ∈ r.commitIds, (o.commits.get? id).isSome) :
    Portable env identity
      { o with branches := o.branches.insert branch reference, reflogs := reflogs } := by
  refine { h with
    branch := fun b v hb => ?_
    reflog := fun k r hr id hid => ?_
    branchName := fun b v hb => ?_
    reflogName := fun k r hr => ?_ }
  · rcases of_get?_insert hb with ⟨-, rfl⟩ | hb
    · exact linkBranch_ok.mpr ⟨body, hbody, htree⟩
    · exact h.branch b v hb
  · rcases hlogs k r hr with hr | ⟨-, hr⟩
    · exact h.reflog k r hr id hid
    · exact linkReflog_ok.mpr (hr id hid)
  · rcases of_get?_insert hb with ⟨rfl, -⟩ | hb
    · exact hname
    · exact h.branchName b v hb
  · rcases hlogs k r hr with hr | ⟨hk, -⟩
    · exact h.reflogName k r hr
    · rw [hk]
      exact hname

/-- **After a pack the receiver is portable**, and the branch is at the target. -/
theorem Applied.portable_after (h : Applied env cfg now p force d d' o body)
    (hname : validateVersionBranchName p.branch = .ok ()) :
    Portable env d'.identity d'.toObjects ∧ d'.head p.branch = some p.target ∧
      d'.commits = o.commits ∧ d'.attestations = o.attestations ∧ d'.protections = d.protections ∧
      d'.identity = d.identity ∧ ∀ b, b ≠ p.branch → d'.branches.get? b = d.branches.get? b := by
  obtain ⟨-, hj⟩ := join_ok h.joined
  have hstored := h.stored
  by_cases hu : d.head p.branch = some p.target
  · rw [if_pos hu] at hstored
    subst hstored
    refine ⟨h.portable, ?_, rfl, rfl, rfl, rfl, fun b _ => by rw [hj.branches]⟩
    show (o.branches.get? p.branch).map _ = _
    rw [hj.branches]
    exact hu
  · rw [if_neg hu, moveSynced] at hstored
    obtain ⟨reflogs, hlogs, ⟨⟩⟩ := bind_eq_ok.mp hstored
    refine ⟨h.portable.moved hname h.found rfl fun k r hr => ?_, ?_, rfl, rfl, rfl, rfl,
      fun b hb => ?_⟩
    · rcases appendReflog_ok hlogs hr with hr | ⟨hk, rfl⟩
      · exact .inl hr
      refine .inr ⟨hk, fun id hid => ?_⟩
      rcases List.mem_append.mp hid with hid | hid
      · -- The branch was at a commit that the receiver holds.
        obtain ⟨v, hv, rfl⟩ := Option.map_eq_some_iff.mp (Option.mem_toList.mp hid)
        rw [← hj.branches] at hv
        obtain ⟨b, hb, -⟩ := linkBranch_ok.mp (h.portable.branch _ v hv)
        rw [hb]
        rfl
      · cases Option.mem_toList.mp hid
        rw [h.found]
        rfl
    · show ((o.branches.insert p.branch _).get? p.branch).map _ = _
      rw [get?_insert_self]
      rfl
    · rw [get?_insert_of_ne _ _ hb, hj.branches]

/-- **After a pack for an unprotected branch a verified receiver is verified.** -/
theorem Applied.verified_after (h : Applied env cfg now p force d d' o body)
    (hname : validateVersionBranchName p.branch = .ok ()) (hd : Store.Verified env d)
    (hfree : d.protections.get? p.branch = none) : Store.Verified env d' := by
  obtain ⟨hportable, -, -, hatt, hprot, -, hbranches⟩ := h.portable_after hname
  refine verified_of_linked hportable.toLinked fun b q hq => ?_
  rw [hprot] at hq
  have hb : b ≠ p.branch := by
    rintro rfl
    rw [hfree] at hq
    cases hq
  refine verifyProtection_mono (hbranches b hb) (fun k a _ hk => ?_) (hd.protection b q hq)
  rw [hatt]
  exact ((join_ok h.joined).2.attestation k a).mpr (.inl hk)

/-! ## Acceptance -/

/-- The store after a pack was offered; a refusal leaves it as it was. -/
def Store.afterSync (d : Store Id) :
    Except Error (VersionRepositorySyncReport Id × Store Id) → Store Id
  | .ok r => r.2
  | .error _ => d

/-- The pack is accepted without force, the branch moves to the source's head, the receiver is
verified, and the new head's files read the same on both sides. -/
def Accepted (P : Prolly env) (cfg : SyncSettings Id) (now cs cd : Nat) (s d : Store Id)
    (branch : String) (tip head : VersionRef Id) : Prop :=
  ∃ p report report' d', s.exportSync env branch (some head.commitId) = .ok (p, report) ∧
    applySyncBundle env cfg now branch p false (some d) = .ok (report', d') ∧
    d'.head branch = some tip.commitId ∧ (∃ v, d'.verify env = .ok v) ∧
    ∀ path offset length, readTree P cd d'.toObjects tip.tree path offset length =
      readTree P cs s.toObjects tip.tree path offset length

/-- Nothing is missing at the receiver, its reflog can go on, and its chunks fit. -/
structure Receivable (P : Prolly env) (cs cd : Nat) (s d : Store Id) (branch : String)
    (tip head : VersionRef Id) : Prop where
  complete : Complete env s d tip.commitId (some head.commitId)
  log : head.commitId = tip.commitId ∨ (d.reflogSequences branch).getLast?.getD 0 + 1 < 2 ^ 64
  files : cs = cd ∨ FilesShort P s.toObjects tip.tree cs cd

/-- Opening a pack for a repository that has the branch. -/
lemma applySyncBundle_eq_ok {r : VersionRepositorySyncReport Id × Store Id}
    (hexpected : p.expected.isSome) :
    applySyncBundle env cfg now branch p force (some d) = .ok r ↔
      validateVersionRepositoryIdentity p.identity = .ok () ∧
      validateVersionBranchName p.branch = .ok () ∧ validateVersionBranchName branch = .ok () ∧
      p.branch = branch ∧ applySyncPayload env cfg now p force d = .ok r := by
  have hwhole : checkFirstPack env p = .ok () := by
    obtain ⟨id, hid⟩ := Option.isSome_iff_exists.mp hexpected
    unfold checkFirstPack
    rw [hid]
  unfold applySyncBundle
  simp only [↓then_eq_ok, bind_eq_ok, refuseIf_eq_ok, not_not]
  constructor
  · rintro ⟨h1, h2, h3, h4, -, _, ⟨⟩, h⟩
    exact ⟨h1, h2, h3, h4, h⟩
  · rintro ⟨h1, h2, h3, h4, h⟩
    exact ⟨h1, h2, h3, h4, hwhole, d, rfl, h⟩

variable {P : Prolly env} {cfg : SyncSettings Id} {now cs cd : Nat} {m : Contents Id}

namespace Behind

variable (h : Behind env s d branch tip head)
include h

lemma head_d : d.head branch = some head.commitId := by
  rw [Objects.head, h.head_eq]
  rfl

lemma pack {report : VersionRepositorySyncReport Id}
    (hexport : s.exportSync env branch (some head.commitId) = .ok (p, report)) :
    Pack s branch tip.commitId (some head.commitId) p := by
  obtain ⟨target, ht, hp⟩ := exportSync_pack hexport
  rw [h.tip_eq] at ht
  cases ht
  exact hp

/-- What was read of the new head on the two sides. -/
lemma reads_after (hinj : env.Injective) (hload : P.load s.nodes.get? tip.tree = .ok m)
    {force : Bool} {d' : Store Id} {body : VersionCommitBody Id}
    (happlied : Applied env cfg now p force d d' o body)
    (hname : validateVersionBranchName p.branch = .ok ()) (htarget : p.target = tip.commitId) :
    readTree P cd d'.toObjects tip.tree = readTree P cd s.toObjects tip.tree := by
  obtain ⟨hportable, -, hcommits, -, -, hid, -⟩ := happlied.portable_after hname
  rw [hid] at hportable
  have hfound := happlied.found
  rw [htarget, ← hcommits] at hfound
  exact h.readTree_joined hinj hload hportable hfound cd

/-- **A pack is accepted where nothing is missing.** -/
theorem accepted_of_receivable (hinj : env.Injective) (hranked : env.Ranked)
    (hload : P.load s.nodes.get? tip.tree = .ok m) (hfree : d.protections.get? branch = none)
    (hmax : cfg.maxBytes = none) (hready : Receivable P cs cd s d branch tip head) :
    Accepted P cfg now cs cd s d branch tip head := by
  have hc := hready.complete
  have hname := hc.branchName _ _ h.head_eq
  obtain ⟨p, report, hexport⟩ := h.export_isOk hname
  have hp := h.pack hexport
  have hagree := h.agreeing hinj hp hc
  obtain ⟨o, ho⟩ := join_isOk hagree
  obtain ⟨-, hj⟩ := join_ok ho
  obtain ⟨body, hbody⟩ := h.holds_tip hranked
  have hportable := (portable_iff_complete h.source_ok h.receiver_ok h.same hj hp
    hagree.attestation ⟨body, hbody⟩).mpr hc
  have hpb := hp.branch_eq
  have hpt := hp.target_eq
  -- The branch moves unless it is there already; then the reflog has room.
  obtain ⟨d', hstored⟩ : ∃ d', if d.head p.branch = some p.target
      then d' = { d with toObjects := o }
      else moveSynced cfg.toSettings now p.branch (d.head p.branch) ⟨p.target, body.tree⟩
        { d with toObjects := o } = .ok d' := by
    split
    · exact ⟨_, rfl⟩
    rename_i hu
    rw [hpb, hpt, h.head_d, Option.some.injEq] at hu
    have hlog := hready.log.resolve_left hu
    rw [← hpb] at hlog
    have hlog : (({ d with toObjects := o } : Store Id).reflogSequences p.branch).getLast?.getD 0
        + 1 < 2 ^ 64 := by
      unfold reflogSequences at hlog ⊢
      rw [hj.reflogs]
      exact hlog
    obtain ⟨reflogs, hr⟩ := appendReflog_isOk.mpr hlog
    exact ⟨_, bind_eq_ok.mpr ⟨reflogs, hr, rfl⟩⟩
  have happlied : Applied env cfg now p false d d' o body := by
    refine ⟨hp.identity_eq.trans h.same, ?_, nofun, ho, hportable, ?_, .inr fun x hx => ?_, ?_,
      hstored⟩
    · rw [hpb, h.head_d, hp.expected_eq]
    · rw [hpt]
      exact (hj.holdsCommit hp).mpr hbody
    · rw [hpb, h.head_d] at hx
      cases hx
      rw [hpt]
      exact h.ancestor_joined hranked hj hp
    · unfold authorizeSyncTarget authorizeBranchPublisher
      rw [hpb]
      rw [hfree]
  have hname' : validateVersionBranchName p.branch = .ok () := by rw [hpb]; exact hname
  obtain ⟨report', happly⟩ := applySyncPayload_isOk hmax happlied
  refine ⟨p, report, report', d', hexport, ?_, ?_, verify_ok_iff.mpr ?_, fun path off len => ?_⟩
  · refine (applySyncBundle_eq_ok (by rw [hp.expected_eq]; rfl)).mpr
      ⟨?_, hname', hname, hpb, happly⟩
    rw [hp.identity_eq, h.same]
    exact hc.identity_ok
  · rw [← hpb, ← hpt]
    exact (happlied.portable_after hname').2.1
  · exact happlied.verified_after hname' h.receiver_ok (by rw [hpb]; exact hfree)
  · rw [h.reads_after hinj hload happlied hname' hpt]
    rcases hready.files with rfl | hshort
    · rfl
    · rw [readTree_short hshort]

/-- A pack that was applied left nothing out, and the reflog had room. -/
lemma complete_of_applied (hranked : env.Ranked)
    {report report' : VersionRepositorySyncReport Id} {d' : Store Id}
    (hexport : s.exportSync env branch (some head.commitId) = .ok (p, report))
    (happly : applySyncBundle env cfg now branch p false (some d) = .ok (report', d')) :
    Complete env s d tip.commitId (some head.commitId) ∧
    (head.commitId = tip.commitId ∨ (d.reflogSequences branch).getLast?.getD 0 + 1 < 2 ^ 64) ∧
    validateVersionBranchName p.branch = .ok () ∧
    ∃ o body, Applied env cfg now p false d d' o body := by
  have hp := h.pack hexport
  obtain ⟨-, hname, -, hpb, happly⟩ :=
    (applySyncBundle_eq_ok (by rw [hp.expected_eq]; rfl)).mp happly
  obtain ⟨o, body, happlied⟩ := applySyncPayload_applied happly
  obtain ⟨hagree, hj⟩ := join_ok happlied.joined
  refine ⟨(portable_iff_complete h.source_ok h.receiver_ok h.same hj hp hagree.attestation
    (h.holds_tip hranked)).mp happlied.portable, ?_, hname, o, body, happlied⟩
  by_cases hu : head.commitId = tip.commitId
  · exact .inl hu
  refine .inr ?_
  have hstored := happlied.stored
  rw [hpb, hp.target_eq, h.head_d, if_neg fun he => hu (Option.some.inj he)] at hstored
  obtain ⟨reflogs, hr, -⟩ := bind_eq_ok.mp hstored
  have hlog := appendReflog_isOk.mp ⟨reflogs, hr⟩
  unfold reflogSequences at hlog ⊢
  rwa [hj.reflogs] at hlog

/-- **Where a pack is accepted nothing was missing**, if the files are laid out as captured. -/
theorem receivable_of_accepted (hinj : env.Injective) (hranked : env.Ranked)
    (hload : P.load s.nodes.get? tip.tree = .ok m) (hlaid : TreeLaid P s.toObjects tip.tree cs)
    (hacc : Accepted P cfg now cs cd s d branch tip head) :
    Receivable P cs cd s d branch tip head := by
  obtain ⟨p, report, report', d', hexport, happly, -, -, hreads⟩ := hacc
  obtain ⟨hcomplete, hlog, hname, o, body, happlied⟩ :=
    h.complete_of_applied hranked hexport happly
  refine ⟨hcomplete, hlog, ?_⟩
  by_cases hcs : cs = cd
  · exact .inl hcs
  refine .inr (short_of_readTree hlaid hcs ?_)
  rw [← h.reads_after hinj hload happlied hname (h.pack hexport).target_eq]
  funext path off len
  exact hreads path off len

end Behind

/-- **A pack against the receiver's head is accepted just if nothing that the receiver then holds
is missing or out of order**, and the chunk sizes fit; a pack that is refused changes nothing. The
files must fit if they are laid out as captures lay them out. -/
theorem sync_accepted_iff (hinj : env.Injective) (hranked : env.Ranked)
    (h : Behind env s d branch tip head) (hload : P.load s.nodes.get? tip.tree = .ok m)
    (hfree : d.protections.get? branch = none) (hmax : cfg.maxBytes = none) :
    (Receivable P cs cd s d branch tip head → Accepted P cfg now cs cd s d branch tip head) ∧
    (TreeLaid P s.toObjects tip.tree cs →
      (Accepted P cfg now cs cd s d branch tip head ↔ Receivable P cs cd s d branch tip head)) ∧
    ∀ p force name e, applySyncBundle env cfg now name p force (some d) = .error e →
      d.afterSync (applySyncBundle env cfg now name p force (some d)) = d := by
  refine ⟨h.accepted_of_receivable hinj hranked hload hfree hmax, fun hlaid =>
    ⟨h.receivable_of_accepted hinj hranked hload hlaid,
      h.accepted_of_receivable hinj hranked hload hfree hmax⟩, fun p force name e he => ?_⟩
  rw [he]
  rfl

end

end

/-! ## Small repositories -/

namespace Digest

lemma env_ranked : env.Ranked := by
  refine ⟨List.length, fun body q hq => ?_⟩
  have hlength : q.length < (codeId.enc q).length := by
    show _ < (q.length :: Code.entries Code.nat q).length
    rw [List.length_cons, Code.length_entries_nat]
    omega
  refine hlength.trans_le ((Code.length_le_entries codeId hq).trans ?_)
  show _ ≤ (body.parents.length :: Code.entries codeId body.parents ++ _).length
  rw [List.length_append, List.length_cons]
  omega

def original : VersionCommitBody Digest := commitOf [] 1 0

def edited : VersionCommitBody Digest := commitOf [idOf original] 2 1

/-- The tree of the first commit again. -/
def reverting : VersionCommitBody Digest := commitOf [idOf edited] 1 2

/-- What both sides start from. -/
def shared : Store Digest := storeOf [1, 2] [original, edited] [("main", edited)] [] []

/-- The receiver keeps one commit of every branch. -/
def pruned : Store Digest :=
  (collected (shared.garbageCollect env 10 0 (some 1) none false none)).getD shared

/-- The source goes back to the tree of the first commit. -/
def reverted : Store Digest :=
  storeOf [1, 2] [original, edited, reverting] [("main", reverting)] [] []

/-- A source that is one commit ahead of its receiver. -/
def leader : Store Digest := repo [dirTree 1, dirTree 2] [before, change] [("main", change)]

def follower : Store Digest := repo [dirTree 1] [before] [("main", before)]

lemma leader_load : (Prolly.flat env).load leader.nodes.get? change.tree = .ok (dirTree 2) := by
  decide +kernel

lemma follower_behind : Behind env leader follower "main" ⟨idOf change, change.tree⟩
    ⟨idOf before, before.tree⟩ where
  source_ok := verify_ok_iff.mp ⟨⟨2, 0, 2, 0⟩, by decide +kernel⟩
  receiver_ok := verify_ok_iff.mp ⟨⟨1, 0, 1, 0⟩, by decide +kernel⟩
  source_addressed := repo_addressed ..
  receiver_addressed := repo_addressed ..
  same := rfl
  tip_eq := by decide +kernel
  head_eq := by decide +kernel
  descends := commitIsAncestor_iff.mp (by decide +kernel)

lemma leader_laid : TreeLaid (.flat env) leader.toObjects change.tree 1 := by
  intro path canonical metadata count hf
  have hfound := hf.found
  rw [(Prolly.flat env).get_load _ _ _ leader_load, Except.ok.injEq] at hfound
  have hmem := (mem_of_get?_insertAll hfound).resolve_left nofun
  cases List.mem_singleton.mp hmem
  cases hf.file

/-- Whether a pack for a branch is refused. -/
def refuses (s d : Store Digest) (branch : String) (expected : Digest) : Bool :=
  match s.exportSync env branch (some expected) with
  | .error _ => false
  | .ok (p, _) =>
    match applySyncBundle env (.unlimited []) 0 branch p false (some d) with
    | .error _ => true
    | .ok _ => false

lemma exists_of_refuses {s d : Store Digest} {branch : String} {expected : Digest}
    (h : refuses s d branch expected = true) :
    ∃ p report e, s.exportSync env branch (some expected) = .ok (p, report) ∧
      applySyncBundle env (.unlimited []) 0 branch p false (some d) = .error e := by
  unfold refuses at h
  split at h
  · cases h
  rename_i p report hexport
  split at h
  · rename_i e he
    exact ⟨p, report, e, hexport, he⟩
  · cases h

end Digest

open Digest in
/-- The receiver has collected the tree of the first commit, the sender takes it to be there. -/
theorem pruned_receiver_refuses :
    (collected (shared.garbageCollect env 10 0 (some 1) none false none)).isSome ∧
    (∃ v, reverted.verify env = .ok v) ∧ (∃ v, pruned.verify env = .ok v) ∧
    reverted.identity = pruned.identity ∧
    reverted.head "main" = some (idOf reverting) ∧ pruned.head "main" = some (idOf edited) ∧
    reverted.Ancestor (idOf edited) (idOf reverting) ∧ pruned.protections.get? "main" = none ∧
    ∃ p report e, reverted.exportSync env "main" (some (idOf edited)) = .ok (p, report) ∧
      applySyncBundle env (.unlimited []) 0 "main" p false (some pruned) = .error e := by
  refine ⟨by decide +kernel, ⟨⟨3, 0, 2, 2⟩, by decide +kernel⟩, ⟨⟨1, 0, 1, 1⟩, by decide +kernel⟩,
    by decide +kernel, by decide +kernel, by decide +kernel,
    commitIsAncestor_iff.mp (by decide +kernel), by decide +kernel, ?_⟩
  exact exists_of_refuses (by decide +kernel)

open Digest in
theorem follower_accepts :
    Receivable (.flat env) 1 1 leader follower "main" ⟨idOf change, change.tree⟩
        ⟨idOf before, before.tree⟩ ∧
      Accepted (.flat env) (.unlimited []) 0 1 1 leader follower "main" ⟨idOf change, change.tree⟩
        ⟨idOf before, before.tree⟩ := by
  have hrun : ((leader.exportSync env "main" (some (idOf before))).toOption.any fun e =>
      (applySyncBundle env (.unlimited []) 0 "main" e.1 false (some follower)).toOption.any
        fun _ => true) = true := by decide +kernel
  obtain ⟨⟨p, report⟩, hexport, hrun⟩ := exists_ok_of_any hrun
  obtain ⟨⟨report', d'⟩, happly, -⟩ := exists_ok_of_any hrun
  obtain ⟨hcomplete, hlog, -⟩ := follower_behind.complete_of_applied env_ranked hexport happly
  have hready : Receivable (.flat env) 1 1 leader follower "main" ⟨idOf change, change.tree⟩
      ⟨idOf before, before.tree⟩ := ⟨hcomplete, hlog, .inl rfl⟩
  exact ⟨hready, ((sync_accepted_iff env_injective env_ranked follower_behind leader_load
    (by decide +kernel) rfl).2.1 leader_laid).mpr hready⟩

end SlateFs.Version
