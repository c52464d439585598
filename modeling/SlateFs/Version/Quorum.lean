import SlateFs.Version.Digest
import SlateFs.Version.Paths
import SlateFs.Version.Refs

/-!
# Signature quorums

A protected branch may ask for a number of trusted signatures. Trust lies in public
keys, but what is counted are the ids under which attestations are kept: a commit has
at most one attestation for each key id (`put_attestation`), and the trusted list has
at most one public key for each id (`normalize_trusted_attestation_keys`).

Nothing asks that a public key is listed under one id only. A key that is listed
twice counts twice, with two attestations of the same signer.
-/

namespace SlateFs.Version

open OrdMap VersionTrustedAttestationKey

section

variable {Id : Type} [ObjectId Id] {env : Env Id} {keys trusted : List VersionTrustedAttestationKey}
  {k : VersionTrustedAttestationKey}

/-! ## Trusted keys -/

lemma normalize_eq_ok : normalizeTrustedAttestationKeys env keys = .ok trusted ↔
    keys.length ≤ 64 ∧ (∀ k ∈ keys, validateVersionTrustedAttestationKey env k = .ok ()) ∧
      distinctKeys (keys.mergeSort le) = .ok () ∧
      trusted = dedup (keys.mergeSort le) := by
  unfold normalizeTrustedAttestationKeys
  by_cases hlen : keys.length > 64
  · rw [if_pos hlen]
    exact ⟨nofun, fun h => absurd h.1 (by omega)⟩
  rw [if_neg hlen, ← checkAll_eq_ok]
  cases checkAll (validateVersionTrustedAttestationKey env) keys with
  | error e => simp
  | ok u =>
    cases hd : distinctKeys (keys.mergeSort le) with
    | error e => simp [hd]
    | ok u =>
      have : keys.length ≤ 64 := by omega
      simp [this, hd, eq_comm]

lemma mem_normalize (h : normalizeTrustedAttestationKeys env keys = .ok trusted) :
    k ∈ trusted ↔ k ∈ keys := by
  rw [(normalize_eq_ok.mp h).2.2.2, mem_dedup, List.mem_mergeSort]

lemma VersionTrustedAttestationKey.le_iff {a b : VersionTrustedAttestationKey} :
    le a b = true ↔
      toLex (a.keyId, a.publicKey) ≤ toLex (b.keyId, b.publicKey) := by
  unfold le
  rw [Prod.Lex.toLex_le_toLex]
  simp

lemma distinctKeys_dedup : ∀ (keys : List VersionTrustedAttestationKey),
    distinctKeys keys = .ok () → distinctKeys (dedup keys) = .ok () := by
  intro keys
  fun_induction dedup keys with
  | case1 => exact id
  | case2 x => exact id
  | case3 x xs ih =>
    intro h
    rw [distinctKeys, if_neg (fun h => h.2 rfl)] at h
    exact ih h
  | case4 x y xs hne ih =>
    intro h
    rw [distinctKeys] at h
    split at h
    · cases h
    rename_i hdiffer
    cases hd : dedup (y :: xs) with
    | nil => rfl
    | cons z zs =>
      have hz := (dedup_isChain (y :: xs)).1
      rw [hd] at hz ih
      cases hz
      rw [distinctKeys, if_neg hdiffer]
      exact ih h

/-- **A list that was normalised is normal.** -/
theorem normalize_idem (h : normalizeTrustedAttestationKeys env keys = .ok trusted) :
    normalizeTrustedAttestationKeys env trusted = .ok trusted := by
  have hmem : ∀ k, k ∈ trusted ↔ k ∈ keys := fun _ => mem_normalize h
  obtain ⟨hlen, hvalid, hdistinct, rfl⟩ := normalize_eq_ok.mp h
  have hsub := dedup_sublist (keys.mergeSort le)
  have hsorted : (dedup (keys.mergeSort le)).mergeSort
      le = dedup (keys.mergeSort le) := by
    refine List.mergeSort_of_pairwise ((List.pairwise_mergeSort ?_ ?_ keys).sublist hsub)
    · intro a b c
      simp only [le_iff]
      exact le_trans
    · intro a b
      simp only [Bool.or_eq_true, le_iff]
      exact le_total _ _
  refine normalize_eq_ok.mpr ⟨?_, fun k hk => hvalid k ((hmem k).mp hk), ?_, ?_⟩
  · have := hsub.length_le
    rw [List.length_mergeSort] at this
    omega
  · rw [hsorted]
    exact distinctKeys_dedup _ hdistinct
  · rw [hsorted, dedup_of_isChain (dedup_isChain _).2]

lemma validateTrusted_eq_ok :
    validateVersionTrustedAttestationKey env k = .ok () ↔
      validateVersionAttestationKeyId k.keyId = .ok () ∧ k.publicKey.length = 32 ∧
        env.keyProblem k.publicKey = none := by
  unfold validateVersionTrustedAttestationKey
  cases validateVersionAttestationKeyId k.keyId with
  | error e => simp
  | ok u =>
    by_cases hlen : k.publicKey.length = 32
    · cases env.keyProblem k.publicKey <;> simp [hlen]
    · simp [hlen]

lemma verifyAttestation_eq_ok {repositoryId : String} {commit : Id} {keyId : String}
    {a : VersionCommitAttestation} :
    verifyVersionCommitAttestation env repositoryId commit keyId a = .ok () ↔
      validateVersionAttestation keyId a = .ok () ∧ env.keyProblem a.publicKey = none ∧
      validateVersionRepositoryId repositoryId = .ok () ∧
      env.verifyStrict a.publicKey
        ⟨repositoryId, commit, keyId, .ed25519, a.publicKey, a.createdAt⟩ a.signature = true := by
  unfold verifyVersionCommitAttestation
  cases validateVersionAttestation keyId a with
  | error e => simp
  | ok u =>
    cases env.keyProblem a.publicKey with
    | some problem => simp
    | none =>
      cases validateVersionRepositoryId repositoryId with
      | error e => simp
      | ok u => simp

end

section

variable {Id : Type} [ObjectId Id] {env : Env Id}

/-! ## Attestations of a commit -/

variable {s : Objects Id} {commit : Id} {keyId branch reference : String}
  {a : VersionCommitAttestation} {trusted : List VersionTrustedAttestationKey}
  {p : VersionBranchProtection} {k : VersionTrustedAttestationKey}

lemma Objects.mem_listAttestations :
    (keyId, a) ∈ s.listAttestations commit ↔
      s.attestations.get? (toLex (commit, keyId)) = some a := by
  unfold listAttestations
  rw [List.mem_map]
  constructor
  · rintro ⟨⟨k, b⟩, hmem, heq⟩
    obtain ⟨hk, hc⟩ := mem_scan.mp hmem
    have hc : (ofLex k).1 = commit := by simpa using hc
    obtain ⟨rfl, rfl⟩ := Prod.mk.inj heq
    rw [← hc]
    exact hk
  · intro h
    exact ⟨(toLex (commit, keyId), a), mem_scan.mpr ⟨h, by simp⟩, rfl⟩

/-- A commit has one attestation for a key id. -/
lemma Objects.listAttestations_nodup (s : Objects Id) (commit : Id) :
    ((s.listAttestations commit).map (·.1)).Nodup := by
  unfold listAttestations
  have hscan : (s.attestations.scan fun k => (ofLex k).1 = commit).Nodup :=
    s.attestations.nodup.filter _
  rw [List.map_map, List.nodup_map_iff_inj_on hscan]
  rintro ⟨k, a⟩ hk ⟨k', a'⟩ hk' heq
  obtain ⟨hget, hc⟩ := mem_scan.mp hk
  obtain ⟨hget', hc'⟩ := mem_scan.mp hk'
  have hkk : k = k' := by
    have h1 : (ofLex k).1 = (ofLex k').1 := by
      have h := of_decide_eq_true hc
      have h' := of_decide_eq_true hc'
      exact h.trans h'.symm
    exact ofLex.injective (Prod.ext h1 heq)
  subst hkk
  rw [hget] at hget'
  cases hget'
  rfl

/-- More attestations of a commit make no smaller quorum. -/
lemma Objects.trustedAttestationCount_mono {s' : Objects Id}
    (h : ∀ keyId a, s.attestations.get? (toLex (commit, keyId)) = some a →
      s'.attestations.get? (toLex (commit, keyId)) = some a) :
    s.trustedAttestationCount commit trusted ≤ s'.trustedAttestationCount commit trusted := by
  refine (List.subperm_of_subset ?_ ?_).length_le
  · exact (s.listAttestations_nodup commit).sublist (List.filter_sublist.map _)
  intro keyId hmem
  obtain ⟨⟨k, a⟩, hka, rfl⟩ := List.mem_map.mp hmem
  obtain ⟨hlist, htrusted⟩ := List.mem_filter.mp hka
  refine List.mem_map.mpr ⟨(k, a), List.mem_filter.mpr ⟨?_, htrusted⟩, rfl⟩
  exact mem_listAttestations.mpr (h k a (mem_listAttestations.mp hlist))

lemma Store.verifyProtection_ok {s : Store Id} :
    s.verifyProtection env branch p = .ok () ↔ ∃ head trusted, s.branches.get? branch = some head ∧
      normalizeTrustedAttestationKeys env p.trustedAttestationKeys = .ok trusted ∧
      validateRequiredAttestations trusted p.requiredAttestations = .ok () ∧
      p.requiredAttestations ≤ s.trustedAttestationCount head.commitId trusted := by
  unfold verifyProtection
  cases s.branches.get? branch with
  | none => simp
  | some head =>
    cases normalizeTrustedAttestationKeys env p.trustedAttestationKeys with
    | error e => simp
    | ok trusted =>
      cases hr : validateRequiredAttestations trusted p.requiredAttestations with
      | error e => simp [hr]
      | ok u =>
        by_cases hc : s.trustedAttestationCount head.commitId trusted < p.requiredAttestations
        · simp [hc, hr, Nat.not_le.mpr hc]
        · simp [hc, hr, Nat.not_lt.mp hc]

/-- A branch that stays where it is keeps its quorum, if no attestation of its head is lost. -/
lemma Store.verifyProtection_mono {s s' : Store Id}
    (hb : s'.branches.get? branch = s.branches.get? branch)
    (ha : ∀ k a, s.head branch = some (ofLex k).1 → s.attestations.get? k = some a →
      s'.attestations.get? k = some a)
    (h : s.verifyProtection env branch p = .ok ()) : s'.verifyProtection env branch p = .ok () := by
  obtain ⟨head, trusted, hhead, hkeys, hrequired, hcount⟩ := verifyProtection_ok.mp h
  refine verifyProtection_ok.mpr ⟨head, trusted, hb.trans hhead, hkeys, hrequired, ?_⟩
  refine hcount.trans (Objects.trustedAttestationCount_mono fun keyId a hk => ha _ a ?_ hk)
  rw [Objects.head, hhead]
  rfl

/-- `add_commit_attestation` -/
def Store.addCommitAttestation (env : Env Id) (cfg : Settings Id) (reference keyId : String)
    (attestation : VersionCommitAttestation) (s : Store Id) : Except Error (Store Id) := do
  let commit ← s.resolveCommit reference
  verifyVersionCommitAttestation env s.identity.id commit.id keyId attestation
  s.putAttestation cfg commit.id keyId attestation

/-- Attaching attestations, one after the other. -/
inductive Attaching (env : Env Id) : Store Id → Store Id → Prop where
  | none {s : Store Id} : Attaching env s s
  | add {s s' s'' : Store Id} {cfg : Settings Id} {reference keyId : String}
      {a : VersionCommitAttestation} :
      Attaching env s s' → s'.addCommitAttestation env cfg reference keyId a = .ok s'' →
      Attaching env s s''

/-- **What attaching does**: nothing, or a new attestation that verifies. -/
theorem Store.addCommitAttestation_cases {cfg : Settings Id} {s s' : Store Id}
    (h : s.addCommitAttestation env cfg reference keyId a = .ok s') :
    ∃ commit, s.resolveCommit reference = .ok commit ∧
      verifyVersionCommitAttestation env s.identity.id commit.id keyId a = .ok () ∧
      (s' = s ∨ s.attestations.get? (toLex (commit.id, keyId)) = none ∧
        s' = { s with attestations := s.attestations.insert (toLex (commit.id, keyId)) a }) := by
  unfold addCommitAttestation at h
  simp only [↓then_eq_ok, bind_eq_ok] at h
  obtain ⟨commit, hc, hv, h⟩ := h
  refine ⟨commit, hc, hv, ?_⟩
  unfold putAttestation at h
  split at h
  · split at h
    · cases h
      exact .inl rfl
    · cases h
  · rename_i hnone
    simp only [↓then_eq_ok] at h
    exact .inr ⟨hnone, (Except.ok.inj h.2).symm⟩

/-- Every attestation of a commit verifies. -/
def Attested (env : Env Id) (s : Store Id) (commit : Id) : Prop :=
  ∀ keyId a, s.attestations.get? (toLex (commit, keyId)) = some a →
    verifyVersionCommitAttestation env s.identity.id commit keyId a = .ok ()

lemma Attaching.attested {s s' : Store Id} (h : Attaching env s s') (hs : Attested env s commit) :
    s'.identity = s.identity ∧ Attested env s' commit := by
  induction h with
  | none => exact ⟨rfl, hs⟩
  | add _ hadd ih =>
    obtain ⟨c, -, hv, rfl | ⟨-, rfl⟩⟩ := Store.addCommitAttestation_cases hadd
    · exact ih
    refine ⟨ih.1, fun keyId a ha => ?_⟩
    rw [get?_insert] at ha
    split at ha
    · rename_i hk
      cases ha
      obtain ⟨rfl, rfl⟩ := Prod.mk.inj (toLex.injective hk)
      exact hv
    · exact ih.2 keyId a ha

/-! ## Counting signers -/

/-- The holder of this key can sign any statement. There are public keys of which this is
not so: `from_bytes` takes keys of small order, and `verify_strict` refuses them. -/
def Env.Signs (env : Env Id) (publicKey : Bytes) : Prop :=
  ∀ statement, ∃ signature, signature.length = 64 ∧
    env.verifyStrict publicKey statement signature = true

/-- The attestations that count for a list of trusted keys. -/
lemma mem_trustedKeyIds : keyId ∈ s.trustedAttestationKeyIds commit trusted ↔
      ∃ a, s.attestations.get? (toLex (commit, keyId)) = some a ∧
        ⟨keyId, a.algorithm, a.publicKey⟩ ∈ trusted := by
  unfold Objects.trustedAttestationKeyIds
  rw [List.mem_map]
  constructor
  · rintro ⟨⟨keyId, a⟩, hmem, rfl⟩
    obtain ⟨hmem, hany⟩ := List.mem_filter.mp hmem
    obtain ⟨⟨keyId', algorithm, publicKey⟩, hk, hmatch⟩ := List.any_eq_true.mp hany
    rw [Bool.and_eq_true, Bool.and_eq_true, decide_eq_true_eq, decide_eq_true_eq,
      decide_eq_true_eq] at hmatch
    obtain ⟨⟨hid, halg⟩, hpub⟩ := hmatch
    refine ⟨a, Objects.mem_listAttestations.mp hmem, ?_⟩
    rw [← hid, ← halg, ← hpub]
    exact hk
  · rintro ⟨a, ha, hk⟩
    refine ⟨(keyId, a), List.mem_filter.mpr ⟨Objects.mem_listAttestations.mpr ha, ?_⟩, rfl⟩
    exact List.any_eq_true.mpr ⟨_, hk, by simp⟩

/-- The public key of the attestation under a key id. -/
def Objects.publicKeyOf (s : Objects Id) (commit : Id) (keyId : String) : Bytes :=
  ((s.attestations.get? (toLex (commit, keyId))).map (·.publicKey)).getD []

/-- When no key is listed twice, different ids that count belong to different keys. -/
lemma card_publicKeys
    (h : ∀ k ∈ trusted, ∀ k' ∈ trusted, k.publicKey = k'.publicKey → k.keyId = k'.keyId) :
    ((s.trustedAttestationKeyIds commit trusted).map (s.publicKeyOf commit)).toFinset.card =
      s.trustedAttestationCount commit trusted := by
  have hinj : ∀ i ∈ s.trustedAttestationKeyIds commit trusted,
      ∀ j ∈ s.trustedAttestationKeyIds commit trusted,
      s.publicKeyOf commit i = s.publicKeyOf commit j → i = j := by
    intro i hi j hj heq
    obtain ⟨a, ha, hk⟩ := mem_trustedKeyIds.mp hi
    obtain ⟨b, hb, hk'⟩ := mem_trustedKeyIds.mp hj
    unfold Objects.publicKeyOf at heq
    rw [ha, hb] at heq
    exact h _ hk _ hk' heq
  have hnodup : (s.trustedAttestationKeyIds commit trusted).Nodup :=
    (s.listAttestations_nodup commit).sublist (List.filter_sublist.map _)
  rw [List.toFinset_card_of_nodup (hnodup.map_on hinj), List.length_map]
  rfl

/-- A store in which a commit can be named and has no attestation yet. -/
structure Unattested (s : Store Id) (reference : String) (commit : VersionCommit Id) : Prop where
  repository : validateVersionRepositoryId s.identity.id = .ok ()
  resolves : s.resolveCommit reference = .ok commit
  none : ∀ keyId, s.attestations.get? (toLex (commit.id, keyId)) = none

/-- A store with one more attestation. -/
def Store.withAttestation (s : Store Id) (commit : Id) (keyId : String)
    (a : VersionCommitAttestation) : Store Id :=
  { s with attestations := s.attestations.insert (toLex (commit, keyId)) a }

lemma Store.get?_withAttestation (s : Store Id) (commit : Id) (keyId keyId' : String)
    (a : VersionCommitAttestation) :
    (s.withAttestation commit keyId a).attestations.get? (toLex (commit, keyId')) =
      if keyId' = keyId then some a else s.attestations.get? (toLex (commit, keyId')) := by
  unfold withAttestation
  rw [get?_insert]
  simp [Prod.ext_iff]

/-- The holder of a trusted key can attach an attestation where there is none. -/
lemma attach_trusted (hsign : env.Signs k.publicKey) {s : Store Id} {commit : VersionCommit Id}
    (hk : validateVersionTrustedAttestationKey env k = .ok ())
    (hrepo : validateVersionRepositoryId s.identity.id = .ok ())
    (hres : s.resolveCommit reference = .ok commit)
    (hnone : s.attestations.get? (toLex (commit.id, k.keyId)) = none) :
    ∃ a, a.publicKey = k.publicKey ∧
      s.addCommitAttestation env (.unlimited commit.id) reference k.keyId a =
        .ok (s.withAttestation commit.id k.keyId a) := by
  obtain ⟨hid, hlen, hproblem⟩ := validateTrusted_eq_ok.mp hk
  obtain ⟨signature, hsig, hverify⟩ := hsign
    ⟨s.identity.id, commit.id, k.keyId, .ed25519, k.publicKey, 0⟩
  refine ⟨⟨.ed25519, k.publicKey, signature, 0⟩, rfl, ?_⟩
  have hverifies : verifyVersionCommitAttestation env s.identity.id commit.id k.keyId
      ⟨.ed25519, k.publicKey, signature, 0⟩ = .ok () := by
    rw [verifyAttestation_eq_ok]
    refine ⟨?_, hproblem, hrepo, hverify⟩
    simp [validateVersionAttestation, hid, hlen, hsig]
  unfold Store.addCommitAttestation
  simp only [↓then_eq_ok, bind_eq_ok]
  refine ⟨commit, hres, hverifies, ?_⟩
  unfold Store.putAttestation
  rw [hnone]
  rfl

/-- The keys under two trusted ids are both counted, also when they are one key. -/
lemma both_counted
    (hvalid : ∀ k ∈ trusted, validateVersionTrustedAttestationKey env k = .ok ()) {s₀ : Store Id}
    {commit : VersionCommit Id} (h₀ : Unattested s₀ reference commit)
    {k' : VersionTrustedAttestationKey} (hk : k ∈ trusted) (hk' : k' ∈ trusted)
    (hsign : env.Signs k.publicKey) (hsign' : env.Signs k'.publicKey) (hne : k.keyId ≠ k'.keyId) :
    ∃ s, Attaching env s₀ s ∧ 2 ≤ s.trustedAttestationCount commit.id trusted ∧
      ∀ keyId a, s.attestations.get? (toLex (commit.id, keyId)) = some a →
        a.publicKey = k.publicKey ∨ a.publicKey = k'.publicKey := by
  obtain ⟨a, ha, hadd⟩ := attach_trusted hsign (hvalid k hk) h₀.repository h₀.resolves
    (h₀.none k.keyId)
  have hnone : (s₀.withAttestation commit.id k.keyId a).attestations.get?
      (toLex (commit.id, k'.keyId)) = none := by
    rw [Store.get?_withAttestation, if_neg (Ne.symm hne)]
    exact h₀.none k'.keyId
  obtain ⟨b, hb, hadd'⟩ := attach_trusted hsign' (hvalid k' hk')
    (show validateVersionRepositoryId (s₀.withAttestation commit.id k.keyId a).identity.id = _
      from h₀.repository) h₀.resolves hnone
  refine ⟨_, .add (.add .none hadd) hadd', ?_, ?_⟩
  · have hmem : ∀ j ∈ [k.keyId, k'.keyId], j ∈ Objects.trustedAttestationKeyIds
        ((s₀.withAttestation commit.id k.keyId a).withAttestation commit.id k'.keyId b).toObjects
        commit.id trusted := by
      intro j hj
      rw [mem_trustedKeyIds, Store.get?_withAttestation, Store.get?_withAttestation]
      rcases List.mem_cons.mp hj with rfl | hj
      · exact ⟨a, by rw [if_neg hne, if_pos rfl], ha ▸ hk⟩
      · cases List.mem_singleton.mp hj
        exact ⟨b, by rw [if_pos rfl], hb ▸ hk'⟩
    exact (List.subperm_of_subset (by simp [hne]) hmem).length_le
  · intro keyId c hc
    rw [Store.get?_withAttestation, Store.get?_withAttestation, h₀.none] at hc
    split at hc
    · cases hc
      exact .inr hb
    · split at hc
      · cases hc
        exact .inl ha
      · cases hc

/-- So many keys have signed a commit as are counted for it, in every store in which its
attestations are attached. -/
def CountsSigners (env : Env Id) (s₀ : Store Id) (commit : Id)
    (trusted : List VersionTrustedAttestationKey) : Prop :=
  ∀ s, Attaching env s₀ s → ∀ signed : Bytes → Prop,
    (∀ keyId a, (keyId, a) ∈ s.listAttestations commit →
      verifyVersionCommitAttestation env s.identity.id commit keyId a = .ok () →
      signed a.publicKey) →
    ∀ n ≤ s.trustedAttestationCount commit trusted,
      ∃ signers : Finset Bytes, signers.card = n ∧ ∀ k ∈ signers, signed k

/-- **A quorum counts signers when no public key is trusted under two ids**, and it does not
when a key that can sign is. -/
theorem quorum_counts_signers {keys trusted : List VersionTrustedAttestationKey}
    (hkeys : normalizeTrustedAttestationKeys env keys = .ok trusted)
    {s₀ : Store Id} {reference : String} {commit : VersionCommit Id}
    (h₀ : Unattested s₀ reference commit) :
    ((∀ k ∈ keys, ∀ k' ∈ keys, k.publicKey = k'.publicKey → k.keyId = k'.keyId) →
      CountsSigners env s₀ commit.id trusted) ∧
    ∀ k ∈ keys, ∀ k' ∈ keys, k.publicKey = k'.publicKey → k.keyId ≠ k'.keyId →
      env.Signs k.publicKey → ¬CountsSigners env s₀ commit.id trusted := by
  have hmem : ∀ k, k ∈ trusted ↔ k ∈ keys := fun k => mem_normalize hkeys
  constructor
  · intro h s hrun signed hsigned n hn
    have hnone : Attested env s₀ commit.id := fun keyId a ha => by
      rw [h₀.none] at ha
      cases ha
    rw [← card_publicKeys fun k hk k' hk' => h k ((hmem k).mp hk) k' ((hmem k').mp hk')] at hn
    obtain ⟨signers, hsub, hcard⟩ := Finset.exists_subset_card_eq hn
    refine ⟨signers, hcard, fun k hk => ?_⟩
    obtain ⟨keyId, hid, rfl⟩ := List.mem_map.mp (List.mem_toFinset.mp (hsub hk))
    obtain ⟨a, ha, -⟩ := mem_trustedKeyIds.mp hid
    have hpub : s.publicKeyOf commit.id keyId = a.publicKey := by
      unfold Objects.publicKeyOf
      rw [ha]
      rfl
    rw [hpub]
    exact hsigned keyId a (Objects.mem_listAttestations.mpr ha)
      ((hrun.attested hnone).2 keyId a ha)
  · intro k hk k' hk' hpub hne hsign h
    obtain ⟨s, hrun, hcount, hall⟩ := both_counted
      (fun k hk => (normalize_eq_ok.mp hkeys).2.1 k ((hmem k).mp hk)) h₀ ((hmem k).mpr hk)
      ((hmem k').mpr hk') hsign (hpub ▸ hsign) hne
    -- only one key has signed
    obtain ⟨signers, hcard, hsigners⟩ := h s hrun (· = k.publicKey)
      (fun keyId a ha _ => (hall keyId a (Objects.mem_listAttestations.mp ha)).elim id
        fun heq => heq.trans hpub.symm) 2 hcount
    have : signers ⊆ {k.publicKey} := fun x hx => Finset.mem_singleton.mpr (hsigners x hx)
    have := Finset.card_le_card this
    rw [hcard, Finset.card_singleton] at this
    omega

end

namespace Digest

/-- What the holder of a key signs a statement with: the key again, and the key id. -/
def signatureOf (publicKey : Bytes)
    (statement : VersionCommitAttestationStatement Digest) : Bytes :=
  publicKey ++ (statement.keyId.toUTF8.data.toList ++ List.replicate 32 0).take 32

/-- Signatures are of one key, and the zero key has none. -/
def signing : Env Digest :=
  { env with
    verifyStrict := fun publicKey statement signature =>
      publicKey ≠ List.replicate 32 0 ∧ signature = signatureOf publicKey statement }

/-- A public key that repeats one byte, under an id. -/
def keyUnder (keyId : String) (b : UInt8) : VersionTrustedAttestationKey :=
  ⟨keyId, .ed25519, List.replicate 32 b⟩

lemma signs_keyUnder {keyId : String} {b : UInt8} (hb : b ≠ 0) :
    signing.Signs (keyUnder keyId b).publicKey := by
  intro statement
  refine ⟨signatureOf (List.replicate 32 b) statement, by simp [signatureOf], ?_⟩
  have hne : List.replicate 32 b ≠ List.replicate 32 0 := by simpa using hb
  exact decide_eq_true ⟨hne, rfl⟩

/-- One commit, on `main`. -/
def oneCommit : Store Digest := storeOf [1] [commitOf [] 1 0] [("main", commitOf [] 1 0)] [] []

def theCommit : VersionCommit Digest := ⟨commitOf [] 1 0, idOf (commitOf [] 1 0)⟩

lemma oneCommit_unattested : Unattested oneCommit "main" theCommit :=
  ⟨by decide +kernel, by rfl, fun _ => rfl⟩

lemma normalize_two : ∀ c ∈ ([7, 9] : List UInt8),
    normalizeTrustedAttestationKeys signing [keyUnder "a" 9, keyUnder "b" c] =
      .ok [keyUnder "a" 9, keyUnder "b" c] := by
  have hsorted : ∀ c ∈ ([7, 9] : List UInt8),
      [keyUnder "a" 9, keyUnder "b" c].Pairwise fun k k' => le k k' = true := by decide +kernel
  intro c hc
  rw [normalize_eq_ok, List.mergeSort_of_pairwise (hsorted c hc)]
  clear hsorted
  revert c
  decide +kernel

end Digest

open Digest in
/-- Two keys under two ids have both signed, and count as two signers. -/
theorem two_keys_count_signers : ∃ s, Attaching signing oneCommit s ∧
    2 ≤ s.trustedAttestationCount theCommit.id [keyUnder "a" 9, keyUnder "b" 7] ∧
    ∃ signers : Finset Bytes, signers.card = 2 ∧ ∀ k ∈ signers,
      k = List.replicate 32 9 ∨ k = List.replicate 32 7 := by
  have hkeys := normalize_two 7 (by decide)
  obtain ⟨s, hrun, hcount, hall⟩ := both_counted (normalize_eq_ok.mp hkeys).2.1
    oneCommit_unattested (List.mem_cons_self ..) (List.mem_cons_of_mem _ (List.mem_cons_self ..))
    (signs_keyUnder (by decide)) (signs_keyUnder (by decide)) (by decide)
  exact ⟨s, hrun, hcount, (quorum_counts_signers hkeys oneCommit_unattested).1 (by decide) s hrun
    _ (fun keyId a ha _ => hall keyId a (Objects.mem_listAttestations.mp ha)) 2 hcount⟩

open Digest in
/-- One public key under the ids `a` and `b`: the list is accepted, and the two attestations of
one signer make a quorum of two. -/
theorem one_signer_counts_twice :
    normalizeTrustedAttestationKeys signing [keyUnder "a" 9, keyUnder "b" 9] =
      .ok [keyUnder "a" 9, keyUnder "b" 9] ∧
    ∃ s, Attaching signing oneCommit s ∧
      2 ≤ s.trustedAttestationCount theCommit.id [keyUnder "a" 9, keyUnder "b" 9] ∧
      ∀ keyId a, (keyId, a) ∈ s.listAttestations theCommit.id →
        a.publicKey = List.replicate 32 9 := by
  have hkeys := normalize_two 9 (by decide)
  obtain ⟨s, hrun, hcount, hall⟩ := both_counted (normalize_eq_ok.mp hkeys).2.1
    oneCommit_unattested (List.mem_cons_self ..) (List.mem_cons_of_mem _ (List.mem_cons_self ..))
    (signs_keyUnder (by decide)) (signs_keyUnder (by decide)) (by decide)
  exact ⟨hkeys, s, hrun, hcount,
    fun keyId a ha => (hall keyId a (Objects.mem_listAttestations.mp ha)).elim id id⟩

end SlateFs.Version
