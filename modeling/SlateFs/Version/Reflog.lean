import SlateFs.Version.Sound

/-!
# The reflog of a branch

Whatever moves, creates, deletes or recovers a branch appends one entry to its reflog, in
the batch that moves it. The sequence number is derived from the entries that are there,
and the oldest beyond the window are dropped.

What is kept is described by a record of all entries that were ever seen in the reflog:
they are numbered from one on, each begins where the one before it ended, the last ended
at the head of the branch, and the store holds the end of the record.
-/

namespace OrdMap

variable {κ α : Type} [LinearOrder κ] {m : OrdMap κ α} {p : κ → Bool}

/-- A sorted list with the bindings of a scan is that scan. -/
lemma scan_eq_of {l : List (κ × α)} (hs : l.Pairwise fun a b => a.1 < b.1)
    (hm : ∀ k v, (k, v) ∈ l ↔ m.get? k = some v ∧ p k = true) : m.scan p = l := by
  have hnd : ∀ {l : List (κ × α)}, l.Pairwise (fun a b => a.1 < b.1) → l.Nodup :=
    fun h => h.imp fun hlt he => absurd (he ▸ hlt) (lt_irrefl _)
  refine List.Perm.eq_of_pairwise (fun a b _ _ h₁ h₂ => absurd (lt_trans h₁ h₂) (lt_irrefl _))
    (m.scan_sorted p) hs ?_
  rw [List.perm_ext_iff_of_nodup (hnd (m.scan_sorted p)) (hnd hs)]
  rintro ⟨k, v⟩
  rw [mem_scan, hm]

/-- Dropping the first keys of a scan leaves the rest of it. -/
lemma scan_eraseAll_take (n : Nat) :
    (m.eraseAll (((m.scan p).take n).map Prod.fst)).scan p = (m.scan p).drop n := by
  have hs := m.scan_sorted p
  refine scan_eq_of (hs.sublist (List.drop_sublist ..)) fun k v => ?_
  rw [get?_eraseAll]
  have hsplit := List.take_append_drop n (m.scan p)
  rw [← hsplit] at hs
  have hlt := (List.pairwise_append.mp hs).2.2
  constructor
  · intro hmem
    obtain ⟨hk, hp⟩ := mem_scan.mp (List.mem_of_mem_drop hmem)
    refine ⟨?_, hp⟩
    rw [if_neg, hk]
    intro hin
    obtain ⟨e, he, rfl⟩ := List.mem_map.mp hin
    exact lt_irrefl _ (hlt e he (e.1, v) hmem)
  · rintro ⟨hk, hp⟩
    split at hk
    · cases hk
    rename_i hnot
    have hmem : (k, v) ∈ m.scan p := mem_scan.mpr ⟨hk, hp⟩
    rw [← hsplit] at hmem
    exact (List.mem_append.mp hmem).resolve_left fun htake =>
      hnot (List.mem_map_of_mem htake)

/-- A key above all that a scan finds is found last. -/
lemma scan_insert_last {k : κ} {v : α} (hk : p k = true) (hlast : ∀ e ∈ m.scan p, e.1 < k) :
    (m.insert k v).scan p = m.scan p ++ [(k, v)] := by
  refine scan_eq_of (List.pairwise_append.mpr ⟨m.scan_sorted p, List.pairwise_singleton ..,
    fun e he x hx => ?_⟩) fun k' v' => ?_
  · rw [List.mem_singleton.mp hx]
    exact hlast e he
  rw [List.mem_append, List.mem_singleton, mem_scan, get?_insert, Prod.mk.injEq]
  split
  · rename_i heq
    subst heq
    constructor
    · rintro (⟨hold, -⟩ | ⟨-, rfl⟩)
      · exact absurd (hlast _ (mem_scan.mpr ⟨hold, hk⟩)) (lt_irrefl _)
      · exact ⟨rfl, hk⟩
    · rintro ⟨h, -⟩
      exact .inr ⟨rfl, (Option.some.inj h).symm⟩
  · rename_i hne
    exact ⟨fun h => h.resolve_right fun h => hne h.1, .inl⟩

lemma scan_congr {m' : OrdMap κ α} (h : ∀ k, p k = true → m'.get? k = m.get? k) :
    m'.scan p = m.scan p :=
  scan_eq_of (m.scan_sorted p) fun k v => by
    rw [mem_scan]
    exact ⟨fun ⟨hk, hp⟩ => ⟨(h k hp).trans hk, hp⟩, fun ⟨hk, hp⟩ => ⟨(h k hp).symm.trans hk, hp⟩⟩

end OrdMap

namespace SlateFs.Version

open OrdMap

section

variable {Id : Type} [ObjectId Id] {env : Env Id} {s s' : Store Id} {cfg : Settings Id} {now : Nat}

/-! ## What a reflog holds -/

/-- The reflog of a branch, oldest entry first. -/
def Store.reflog (s : Store Id) (branch : String) : List (Nat × VersionReflogRecord Id) :=
  (s.reflogs.scan fun k => (ofLex k).1 = branch).map fun e => ((ofLex e.1).2, e.2)

variable {branch : String} {r : VersionReflogRecord Id} {commit : Option Id}
  {reference : VersionRef Id}

lemma Store.mem_reflog {n : Nat} :
    (n, r) ∈ s.reflog branch ↔ s.reflogs.get? (toLex (branch, n)) = some r := by
  constructor
  · intro h
    obtain ⟨⟨k, r'⟩, he, heq⟩ := List.mem_map.mp h
    obtain ⟨hk, hb⟩ := mem_scan.mp he
    cases heq
    rw [← show (ofLex k).1 = branch by simpa using hb]
    exact hk
  · intro h
    exact List.mem_map.mpr ⟨(toLex (branch, n), r), mem_scan.mpr ⟨h, by simp⟩, rfl⟩

lemma Store.reflogSequences_eq (branch : String) :
    s.reflogSequences branch = (s.reflog branch).map (·.1) := by
  unfold reflogSequences reflog
  rw [List.map_map]
  rfl

lemma Store.reflog_keys (branch : String) :
    (s.reflogs.scan fun k => (ofLex k).1 = branch).map Prod.fst =
      (s.reflog branch).map fun e => toLex (branch, e.1) := by
  unfold reflog
  rw [List.map_map]
  refine List.map_congr_left fun ⟨k, r⟩ he => ?_
  have hb : (ofLex k).1 = branch := by simpa using (mem_scan.mp he).2
  rw [← hb]
  rfl

/-- **The reflogs after an append**: the branch has one entry more, and the oldest beyond the
window are gone. -/
theorem Store.reflog_append {previous : Option Id} {action : VersionReflogAction}
    (h : s.appendReflog cfg now branch previous commit action = .ok s'.reflogs) (b : String) :
    s'.reflog b = if b = branch then
        (s.reflog b).drop ((s.reflog b).length + 1 - cfg.reflogKeepLast) ++
          [(((s.reflog b).map (·.1)).getLast?.getD 0 + 1, ⟨previous, commit, action, now⟩)]
      else s.reflog b := by
  unfold appendReflog at h
  simp only [↓then_eq_ok] at h
  obtain ⟨-, h⟩ := h
  have hlogs := (Except.ok.inj h).symm
  rw [reflogSequences_eq] at hlogs
  split
  · rename_i heq
    subst heq
    have htake : (((s.reflog b).map (·.1)).take
        (((s.reflog b).map (·.1)).length + 1 - cfg.reflogKeepLast)).map (fun n => toLex (b, n)) =
        ((s.reflogs.scan fun k => (ofLex k).1 = b).take
          ((s.reflog b).length + 1 - cfg.reflogKeepLast)).map Prod.fst := by
      rw [List.map_take, List.map_take, List.map_map, reflog_keys, List.length_map]
      rfl
    rw [htake] at hlogs
    unfold reflog
    rw [hlogs, scan_insert_last (by simp), scan_eraseAll_take, List.map_append, List.map_drop]
    · rfl
    -- the number is above all that are left
    intro e he
    rw [scan_eraseAll_take] at he
    obtain ⟨hk, hb⟩ := mem_scan.mp (List.mem_of_mem_drop he)
    have hb : (ofLex e.1).1 = b := by simpa using hb
    have hmem : (ofLex e.1).2 ∈ (s.reflog b).map (·.1) :=
      List.mem_map_of_mem (List.mem_map_of_mem
        (f := fun e : (String ×ₗ Nat) × VersionReflogRecord Id => ((ofLex e.1).2, e.2))
        (List.mem_of_mem_drop he))
    have hsorted : ((s.reflog b).map (·.1)).Pairwise (· ≤ ·) := by
      unfold reflog
      rw [List.map_map]
      refine List.pairwise_map.mpr ((s.reflogs.scan_sorted _).imp_of_mem fun hx hy hlt => ?_)
      have hx := (mem_scan.mp hx).2
      have hy := (mem_scan.mp hy).2
      simp only [decide_eq_true_eq] at hx hy
      rcases Prod.Lex.lt_iff.mp hlt with hlt | ⟨-, hlt⟩
      · rw [hx, hy] at hlt
        exact absurd hlt (lt_irrefl _)
      · exact le_of_lt hlt
    refine Prod.Lex.lt_iff.mpr (.inr ⟨hb, Nat.lt_succ_of_le ?_⟩)
    cases hlast : ((s.reflog b).map (·.1)).getLast? with
    | none => rw [List.getLast?_eq_none_iff.mp hlast] at hmem; cases hmem
    | some n =>
      obtain ⟨init, hinit⟩ := List.getLast?_eq_some_iff.mp hlast
      rw [hinit] at hmem hsorted
      rcases List.mem_append.mp hmem with hmem | hmem
      · exact (List.pairwise_append.mp hsorted).2.2 _ hmem n (List.mem_singleton_self n)
      · exact le_of_eq (List.mem_singleton.mp hmem)
  · rename_i hne
    unfold reflog
    rw [hlogs, scan_congr]
    intro k hk
    have hk : (ofLex k).1 = b := by simpa using hk
    rw [get?_insert_of_ne, get?_eraseAll, if_neg]
    · intro hmem
      obtain ⟨n, -, rfl⟩ := List.mem_map.mp hmem
      exact hne hk.symm
    · rintro rfl
      exact hne hk.symm

/-! ## What a call logs -/

/-- A call that replaces the reflogs by those of a bundle. -/
def RepositoryCall.imports : RepositoryCall env → Bool
  | .importBundle .. => true
  | _ => false

/-- A branch was moved from its head, and that was logged. -/
structure Moved (cfg : Settings Id) (now : Nat) (s s' : Store Id) (branch : String)
    (commit : Option Id) : Prop where
  head : ∀ b, s'.head b = if b = branch then commit else s.head b
  stored : ∀ id, commit = some id → (s'.commits.get? id).isSome
  log : ∃ action, s.appendReflog cfg now branch (s.head branch) commit action = .ok s'.reflogs

/-- What a call does to branches and reflogs. -/
inductive Logs (cfg : Settings Id) (now : Nat) (s s' : Store Id) : Prop where
  | still (hb : s'.branches = s.branches) (hl : s'.reflogs = s.reflogs)
  | pruned (hb : s'.branches = s.branches) (hl : s'.reflogs = (s.pruneReflogs cfg).2.reflogs)
  | moved {branch : String} {commit : Option Id} (h : Moved cfg now s s' branch commit)

/-- Commits that a head or a reflog entry names. -/
def Store.Named (s : Store Id) (id : Id) : Prop :=
  (∃ b, s.head b = some id) ∨ id ∈ s.reflogCommitIds

lemma head_congr (h : s'.branches = s.branches) (b : String) : s'.head b = s.head b := by
  unfold Objects.head
  rw [h]

lemma head_insert (h : s'.branches = s.branches.insert branch reference) (b : String) :
    s'.head b = if b = branch then some reference.commitId else s.head b := by
  unfold Objects.head
  rw [h, get?_insert]
  split <;> rfl

/-- A branch is moved to a commit that is stored. -/
lemma logs_insert (branch : String) (reference : VersionRef Id)
    (hb : s'.branches = s.branches.insert branch reference)
    (hc : (s'.commits.get? reference.commitId).isSome) (action : VersionReflogAction)
    (hlog : s.appendReflog cfg now branch (s.head branch) (some reference.commitId) action =
      .ok s'.reflogs) : Logs cfg now s s' :=
  .moved ⟨head_insert hb, fun _ hid => by cases hid; exact hc, action, hlog⟩

lemma appendReflog_congr {s₁ : Store Id} (h : s₁.reflogs = s.reflogs) (branch : String)
    (previous commit : Option Id) (action : VersionReflogAction) :
    s₁.appendReflog cfg now branch previous commit action =
      s.appendReflog cfg now branch previous commit action := by
  unfold Store.appendReflog Store.reflogSequences
  rw [h]

/-- **A call logs what it moves**, and keeps the commits that heads and reflogs name. -/
theorem effect_logs {cfg : SyncSettings Id} {call : RepositoryCall env}
    (himport : call.imports = false)
    (hheads : ∀ b id, s.head b = some id → (s.commits.get? id).isSome)
    (he : Effect cfg now call s s') :
    Logs cfg.toSettings now s s' ∧
      ∀ id, s.Named id → (s.commits.get? id).isSome → (s'.commits.get? id).isSome := by
  -- creating, resetting and recovering a branch end alike, at a commit they looked up
  have hset : Store.BranchSet cfg.toSettings now s s' → Logs cfg.toSettings now s s' ∧
      ∀ id, s.Named id → (s.commits.get? id).isSome → (s'.commits.get? id).isSome := by
    rintro ⟨hc, -, -, hlog⟩
    exact ⟨logs_insert _ _ rfl (Option.isSome_iff_exists.mpr ⟨_, hc⟩) _ hlog, fun _ _ hid => hid⟩
  cases he with
  | stored hputs =>
    obtain ⟨-, hb, -, -, hl, hc⟩ := hputs.refs
    exact ⟨.still hb hl, fun id _ hid => hc ▸ hid⟩
  | @published s₁ _ r hputs _ _ hpub =>
    obtain ⟨-, hb, -, -, hl, hc⟩ := hputs.refs
    obtain ⟨hhead, -, -, reflogs, hlog, rfl⟩ := publishCommit_published hpub
    -- the objects that were stored first leave the branches and the reflog alone
    have hsame : s.head r.branch = r.expected := (head_congr hb _).symm.trans hhead
    have hstored : ∀ id, ((s₁.published r reflogs).commits.get? id).isSome ↔
        id = r.commit.id ∨ (s.commits.get? id).isSome := by
      intro id
      show ((s₁.commits.insert _ _).get? id).isSome ↔ _
      rw [get?_insert, hc]
      split <;> simp_all
    refine ⟨logs_insert r.branch r.commit.ref (congrArg (fun b => OrdMap.insert b _ _) hb)
      ((hstored _).mpr (.inl rfl)) r.reflogAction ?_, fun id _ hid => (hstored id).mpr (.inr hid)⟩
    rw [hsame, ← appendReflog_congr hl]
    exact hlog
  | @forwarded op _ source target _ hf =>
    -- the new head is looked up as a branch only, so that it is stored is known of all heads
    obtain ⟨hsource, -, -, reflogs, hlog, rfl⟩ := Store.fastForwardBranch_ok hf.forwarded
    exact ⟨logs_insert _ _ rfl (hheads op.source _ (Store.head_of_branch hsource)) _ hlog,
      fun _ _ hid => hid⟩
  | tagged _ ht =>
    obtain ⟨-, rfl⟩ := Store.createTag_ok ht
    exact ⟨.still rfl rfl, fun _ _ hid => hid⟩
  | untagged ht =>
    obtain rfl := Store.deleteTag_ok ht
    exact ⟨.still rfl rfl, fun _ _ hid => hid⟩
  | branched hc hb => exact hset (Store.createBranch_set hc hb)
  | @deleted name _ _ hb =>
    obtain ⟨-, -, reflogs, hlog, rfl⟩ := Store.deleteBranch_ok hb
    have hmoved : Moved cfg.toSettings now s
        { s with branches := s.branches.erase name, reflogs := reflogs } name none := by
      refine ⟨fun b => ?_, nofun, .delete, hlog⟩
      show ((s.branches.erase name).get? b).map _ = _
      rw [get?_erase]
      split <;> rfl
    exact ⟨.moved hmoved, fun _ _ hid => hid⟩
  | reset hc hb => exact hset (Store.resetBranch_set hc hb)
  | recovered hb => exact hset (Store.recoverBranch_set hb)
  | protection hp =>
    obtain ⟨-, -, rfl⟩ := Store.setBranchProtected_ok hp
    exact ⟨.still rfl rfl, fun _ _ hid => hid⟩
  | attested _ _ ha =>
    rcases Store.putAttestation_ok ha with rfl | ⟨-, rfl⟩
    · exact ⟨.still rfl rfl, fun _ _ hid => hid⟩
    · exact ⟨.still rfl rfl, fun _ _ hid => hid⟩
  | pruned => exact ⟨.pruned rfl rfl, fun _ _ hid => hid⟩
  | collected _ hg =>
    obtain ⟨l, T, rfl, hT⟩ := Store.garbageCollect_removes hg
    refine ⟨.still (Store.branches_removeAll ..) (Store.reflogs_removeAll ..), fun id hid hc => ?_⟩
    rw [Store.get?_commits_retained hT]
    · exact hc
    -- heads and what the reflog names are retained whatever else is collected
    rcases hid with ⟨b, hb⟩ | hid
    · obtain ⟨head, hhead, rfl⟩ := Option.map_eq_some_iff.mp hb
      exact (Objects.kept_head hhead hc).retained
    · exact ⟨hc, .inr (.inr hid)⟩
  | @synced p _ _ _ _ hsync =>
    obtain ⟨o, body, ha⟩ := applySyncPayload_applied hsync
    have hj := (join_ok ha.joined).2
    have hkeep : ∀ id, (s.commits.get? id).isSome → (o.commits.get? id).isSome := by
      intro id hid
      obtain ⟨body, hbody⟩ := Option.isSome_iff_exists.mp hid
      rw [(hj.commit id body).mpr (.inl hbody)]
      rfl
    -- a pack whose target is the head already moves nothing
    have hstored := ha.stored
    split at hstored
    · subst hstored
      exact ⟨.still hj.branches hj.reflogs, fun id _ hid => hkeep id hid⟩
    obtain ⟨reflogs, hlog, ⟨⟩⟩ := bind_eq_ok.mp hstored
    refine ⟨logs_insert p.branch ⟨p.target, body.tree⟩
      (congrArg (fun b => OrdMap.insert b _ _) hj.branches)
      (Option.isSome_iff_exists.mpr ⟨_, ha.found⟩) .sync ?_, fun id _ hid => hkeep id hid⟩
    rw [← appendReflog_congr
      (show ({ s with toObjects := o } : Store Id).reflogs = s.reflogs from hj.reflogs)]
    exact hlog
  | imported hcall _ =>
    subst hcall
    cases himport

/-! ## Runs -/

/-- The stores that calls other than imports reach from an empty one under one window, with
every entry that was ever seen in the reflog of a branch. -/
inductive Logged (P : Prolly env) (identity : VersionRepositoryIdentity) (keep : Nat) :
    Store Id → (String → List (Nat × VersionReflogRecord Id)) → Prop where
  | empty : Logged P identity keep (.empty identity) fun _ => []
  | call {s s' : Store Id} {log : String → List (Nat × VersionReflogRecord Id)}
      {cfg : SyncSettings Id} {now : Nat} {call : RepositoryCall env} {r : Except Error Unit}
      (h : Logged P identity keep s log) (himport : call.imports = false)
      (hkeep : cfg.reflogKeepLast = keep) (hp : perform P cfg now call s = (r, s')) :
      Logged P identity keep s' fun b =>
        log b ++ (s'.reflog b).filter fun e => e ∉ s.reflog b

/-- **A chained reflog**: the store keeps the end of what was ever logged. -/
structure Chained (keep : Nat) (s : Store Id) (branch : String)
    (log : List (Nat × VersionReflogRecord Id)) : Prop where
  kept : s.reflog branch = log.drop (log.length - keep)
  numbered : log.map (·.1) = List.range' 1 log.length
  linked : log.IsChain fun e e' => e'.2.previous = e.2.commit
  born : ∀ e ∈ log.head?, e.2.previous = none
  newest : s.head branch = log.getLast?.bind (·.2.commit)

/-- What heads and reflogs name is stored. -/
structure NamesStored (s : Store Id) : Prop where
  head : ∀ b id, s.head b = some id → (s.commits.get? id).isSome
  reflog : ∀ k r, s.reflogs.get? k = some r → ∀ id ∈ r.commitIds, (s.commits.get? id).isSome

variable {keep : Nat} {branch : String} {log : List (Nat × VersionReflogRecord Id)}

lemma Chained.length_le (h : Chained keep s branch log) : (s.reflog branch).length ≤ keep := by
  rw [h.kept, List.length_drop]
  omega

lemma Chained.last (h : Chained keep s branch log) (hkeep : 0 < keep) :
    ((s.reflog branch).map (·.1)).getLast?.getD 0 = log.length := by
  rw [h.kept, List.map_drop, h.numbered, List.getLast?_drop, List.length_range']
  split
  · simp only [Option.getD_none]
    omega
  · rw [List.getLast?_range', if_neg (by omega)]
    simp only [Option.getD_some]
    omega

/-- Nothing is dropped where nothing exceeds the window. -/
lemma pruneReflogs_still (h : ∀ b, (s.reflog b).length ≤ cfg.reflogKeepLast) :
    (s.pruneReflogs cfg).2.reflogs = s.reflogs := by
  have hnil : ∀ b, (s.reflogSequences b).take
      ((s.reflogSequences b).length - cfg.reflogKeepLast) = [] := by
    intro b
    rw [Store.reflogSequences_eq, List.length_map, Nat.sub_eq_zero_of_le (h b), List.take_zero]
  have hexcess : ∀ bs : List String, (bs.flatMap fun b => ((s.reflogSequences b).take
      ((s.reflogSequences b).length - cfg.reflogKeepLast)).map fun n => toLex (b, n)) = [] :=
    fun bs => List.flatMap_eq_nil_iff.mpr fun b _ => by rw [hnil, List.map_nil]
  show s.reflogs.eraseAll (List.flatMap _ _) = s.reflogs
  rw [hexcess]
  rfl

/-- What leaves a branch and its reflog alone keeps it chained. -/
lemma Chained.still (h : Chained keep s branch log)
    (hreflog : s'.reflog branch = s.reflog branch) (hhead : s'.head branch = s.head branch) :
    Chained keep s' branch (log ++ (s'.reflog branch).filter fun e => e ∉ s.reflog branch) := by
  have hnone : (s'.reflog branch).filter (fun e => e ∉ s.reflog branch) = [] := by
    rw [hreflog]
    exact List.filter_eq_nil_iff.mpr fun e he => by simpa using he
  rw [hnone, List.append_nil]
  exact ⟨hreflog.trans h.kept, h.numbered, h.linked, h.born, hhead.trans h.newest⟩

/-- **One move keeps a reflog chained.** -/
theorem Chained.moved (h : Chained keep s branch log) (hkeep : 0 < keep)
    (hcfg : cfg.reflogKeepLast = keep) {moved : String} (hm : Moved cfg now s s' moved commit) :
    Chained keep s' branch (log ++ (s'.reflog branch).filter fun e => e ∉ s.reflog branch) := by
  obtain ⟨action, hlog⟩ := hm.log
  have hreflog := Store.reflog_append hlog branch
  have hhead := hm.head branch
  split at hreflog
  · rename_i heq
    subst heq
    rw [if_pos rfl] at hhead
    rw [h.last hkeep, hcfg] at hreflog
    -- the new entry carries a number that no entry has
    have hfresh : ∀ r, (log.length + 1, r) ∉ s.reflog branch := by
      intro r hmem
      rw [h.kept] at hmem
      have hin := List.mem_map_of_mem (f := (·.1)) (List.mem_of_mem_drop hmem)
      rw [h.numbered, List.mem_range'_1] at hin
      omega
    have hnew : (s'.reflog branch).filter (fun e => e ∉ s.reflog branch) =
        [(log.length + 1, ⟨s.head branch, commit, action, now⟩)] := by
      rw [hreflog, List.filter_append]
      have hold : ((s.reflog branch).drop ((s.reflog branch).length + 1 - keep)).filter
          (fun e => e ∉ s.reflog branch) = [] := by
        refine List.filter_eq_nil_iff.mpr fun e he => ?_
        simpa using List.mem_of_mem_drop he
      rw [hold, List.nil_append, List.filter_cons_of_pos (by simpa using hfresh _), List.filter_nil]
    rw [hnew]
    refine ⟨?_, ?_, ?_, fun e he => ?_, ?_⟩
    · rw [hreflog, h.kept, List.drop_drop, List.length_drop, List.length_append,
        List.drop_append_of_le_length (by simp only [List.length_singleton]; omega)]
      congr 2
      simp only [List.length_singleton]
      omega
    · rw [List.map_append, h.numbered, List.length_append, List.length_singleton,
        List.range'_concat]
      simp only [List.map_cons, List.map_nil, Nat.one_mul, Nat.add_comm]
    · refine List.isChain_append.mpr ⟨h.linked, List.isChain_singleton _, fun e he e' he' => ?_⟩
      cases he'
      rw [h.newest, Option.mem_def.mp he]
      rfl
    · cases hl : log with
      | nil =>
        rw [hl] at he
        cases he
        rw [h.newest, hl]
        rfl
      | cons x xs =>
        rw [hl] at he
        cases he
        exact h.born _ (by rw [hl]; rfl)
    · rw [hhead, List.getLast?_concat]
      rfl
  · rename_i hne
    rw [if_neg hne] at hhead
    exact h.still hreflog hhead

lemma NamesStored.logs (h : NamesStored s) (hl : Logs cfg now s s')
    (hkeep : ∀ id, s.Named id → (s.commits.get? id).isSome → (s'.commits.get? id).isSome) :
    NamesStored s' := by
  have hhead : ∀ b id, s.head b = some id → (s'.commits.get? id).isSome :=
    fun b id hb => hkeep id (.inl ⟨b, hb⟩) (h.head b id hb)
  have hreflog : ∀ k r, s.reflogs.get? k = some r → ∀ id ∈ r.commitIds,
      (s'.commits.get? id).isSome := fun k r hr id hid =>
    hkeep id (.inr (List.mem_flatMap.mpr ⟨(k, r), mem_entries.mpr hr, hid⟩))
      (h.reflog k r hr id hid)
  cases hl with
  | still hb hl =>
    exact ⟨fun b id hid => hhead b id ((head_congr hb b).symm.trans hid), by rw [hl]; exact hreflog⟩
  | pruned hb hl =>
    refine ⟨fun b id hid => hhead b id ((head_congr hb b).symm.trans hid), fun k r hr =>
      hreflog k r ?_⟩
    rw [hl] at hr
    simp only [Store.pruneReflogs, get?_eraseAll] at hr
    split at hr
    · cases hr
    · exact hr
  | @moved branch commit hm =>
    obtain ⟨action, hlog⟩ := hm.log
    refine ⟨fun b id hid => ?_, fun k r hr id hid => ?_⟩
    · rw [hm.head] at hid
      split at hid
      · exact hm.stored id hid
      · exact hhead b id hid
    · rcases Store.appendReflog_ok hlog hr with hold | ⟨-, rfl⟩
      · exact hreflog k r hold id hid
      rcases List.mem_append.mp hid with hid | hid
      · exact hhead branch id (Option.mem_toList.mp hid)
      · exact hm.stored id (Option.mem_toList.mp hid)

/-- **Every reflog stays chained.** -/
theorem Logged.chained {P : Prolly env} {identity : VersionRepositoryIdentity}
    {log : String → List (Nat × VersionReflogRecord Id)} (hkeep : 0 < keep)
    (h : Logged P identity keep s log) : NamesStored s ∧ ∀ b, Chained keep s b (log b) := by
  induction h with
  | empty =>
    refine ⟨⟨nofun, nofun⟩, fun b => ⟨?_, rfl, List.isChain_nil, nofun, rfl⟩⟩
    rw [List.drop_nil]
    rfl
  | @call s s' log cfg now call r _ himport hcfg hp ih =>
    obtain ⟨hnames, hchained⟩ := ih
    obtain ⟨hl, hstays⟩ := effect_logs himport hnames.head (perform_effect hp)
    refine ⟨hnames.logs hl hstays, fun b => ?_⟩
    have hstill : s'.branches = s.branches → s'.reflogs = s.reflogs → Chained keep s' b
        (log b ++ (s'.reflog b).filter fun e => e ∉ s.reflog b) := fun hb hl =>
      (hchained b).still (by unfold Store.reflog; rw [hl]) (head_congr hb b)
    cases hl with
    | still hb hl => exact hstill hb hl
    | pruned hb hl =>
      refine hstill hb (hl.trans (pruneReflogs_still fun b => ?_))
      rw [hcfg]
      exact (hchained b).length_le
    | moved hm => exact (hchained b).moved hkeep hcfg hm

/-! ## Recovering -/

/-- Recovering from an entry makes the head before it the head again, unless the branch is
protected, is there already, or does not exist and its name is a tag, or numbers run out. -/
lemma recoverBranch_from {n : Nat} {id : Id} (hr : s.reflogs.get? (toLex (branch, n)) = some r)
    (hid : r.previous = some id) (hc : (s.commits.get? id).isSome) :
    (∀ out s', s.recoverBranch cfg now branch n = .ok (out, s') → s'.head branch = some id) ∧
      ((∃ out, s.recoverBranch cfg now branch n = .ok out) ↔
        s.protections.get? branch = none ∧ s.head branch ≠ some id ∧
          (s.head branch = none → s.tags.get? branch = none) ∧
          ((s.reflog branch).map (·.1)).getLast?.getD 0 + 1 < 2 ^ 64) := by
  have hfree : s.head branch = none ↔ (s.branches.get? branch).isNone = true := by
    unfold Objects.head
    rw [Option.map_eq_none_iff, Option.isNone_iff_eq_none]
  have hnumber : (∃ reflogs, s.appendReflog cfg now branch (s.head branch) (some id) .recover =
      .ok reflogs) ↔ ((s.reflog branch).map (·.1)).getLast?.getD 0 + 1 < 2 ^ 64 := by
    rw [Store.appendReflog_isOk, Store.reflogSequences_eq]
  unfold Store.recoverBranch
  simp only [↓then_eq_ok, bind_eq_ok, Store.rejectProtectedBranch_ok, refuseIf_eq_ok, okOr_eq_ok,
    Objects.getCommit_eq_ok]
  refine ⟨fun out s' h => ?_, ?_, ?_⟩
  · obtain ⟨-, _, hrecord, _, hprevious, commit, ⟨rfl, -⟩, -, -, reflogs, -, ⟨⟩⟩ := h
    cases hr.symm.trans hrecord
    rw [head_insert rfl, if_pos rfl, ← hid, hprevious]
    rfl
  · rintro ⟨out, hp, _, hrecord, _, hprevious, commit, -, hne, ht, reflogs, hlog, -⟩
    cases hr.symm.trans hrecord
    cases hid.symm.trans hprevious
    refine ⟨hp, hne, fun hnone => ?_, hnumber.mp ⟨reflogs, hlog⟩⟩
    rw [← Option.not_isSome_iff_eq_none]
    exact fun htag => ht ⟨hfree.mp hnone, htag⟩
  · rintro ⟨hp, hne, ht, hlt⟩
    obtain ⟨body, hbody⟩ := Option.isSome_iff_exists.mp hc
    obtain ⟨reflogs, hlog⟩ := hnumber.mpr hlt
    refine ⟨_, hp, r, hr, id, hid, ⟨body, id⟩, ⟨rfl, hbody⟩, hne, ?_, reflogs, hlog, rfl⟩
    rintro ⟨hnone, htag⟩
    rw [ht (hfree.mpr hnone)] at htag
    cases htag

/-- **The reflog of every branch is a chain that ends at its head.** In every store that calls
other than imports reach, the retained entries have increasing numbers, are at most as many as
the window and are the newest that were ever logged; each begins at the head that the one before
it left, the first one ever at none, and the newest left the head of the branch. Recovering from
any of them that begins at a head makes it the head again, and is refused only on a protected
branch, on one that is there already, on a missing one whose name is a tag, or when no number is
left. -/
theorem reflog_chained (P : Prolly env) (identity : VersionRepositoryIdentity) (hkeep : 0 < keep)
    {log : String → List (Nat × VersionReflogRecord Id)} (h : Logged P identity keep s log)
    (branch : String) :
    (s.reflog branch).Pairwise (fun e e' => e.1 < e'.1) ∧
      (s.reflog branch).length ≤ keep ∧
      s.reflog branch = (log branch).drop ((log branch).length - keep) ∧
      (s.reflog branch).IsChain (fun e e' => e'.2.previous = e.2.commit) ∧
      (∀ e ∈ (log branch).head?, e.2.previous = none) ∧
      s.head branch = (s.reflog branch).getLast?.bind (·.2.commit) ∧
      ∀ n r id, (n, r) ∈ s.reflog branch → r.previous = some id → ∀ cfg now,
        (∀ out s', s.recoverBranch cfg now branch n = .ok (out, s') → s'.head branch = some id) ∧
        ((∃ out, s.recoverBranch cfg now branch n = .ok out) ↔
          s.protections.get? branch = none ∧ s.head branch ≠ some id ∧
            (s.head branch = none → s.tags.get? branch = none) ∧
            (log branch).length + 1 < 2 ^ 64) := by
  obtain ⟨hnames, hchained⟩ := h.chained hkeep
  have hb := hchained branch
  refine ⟨?_, hb.length_le, hb.kept, ?_, hb.born, ?_, fun n r id hmem hid cfg now => ?_⟩
  · have hnumbers : ((log branch).map (·.1)).Pairwise (· < ·) := by
      rw [hb.numbered]
      exact List.pairwise_lt_range'
    rw [hb.kept]
    exact (List.pairwise_map.mp hnumbers).sublist (List.drop_sublist ..)
  · rw [hb.kept]
    exact hb.linked.drop _
  · rw [hb.newest, hb.kept, List.getLast?_drop]
    split
    · rw [List.eq_nil_of_length_eq_zero (show (log branch).length = 0 by omega)]
      rfl
    · rfl
  · have hr := Store.mem_reflog.mp hmem
    rw [← hb.last hkeep]
    refine recoverBranch_from hr hid (hnames.reflog _ r hr id ?_)
    exact List.mem_append_left _ (Option.mem_toList.mpr hid)

/-- Make a call and add what it logs. -/
def logCall (P : Prolly env) (cfg : SyncSettings Id)
    (x : Store Id × (String → List (Nat × VersionReflogRecord Id))) (call : RepositoryCall env) :
    Store Id × (String → List (Nat × VersionReflogRecord Id)) :=
  ((perform P cfg 0 call x.1).2, fun b =>
    x.2 b ++ ((perform P cfg 0 call x.1).2.reflog b).filter fun e => e ∉ x.1.reflog b)

def logCalls (P : Prolly env) (identity : VersionRepositoryIdentity) (cfg : SyncSettings Id)
    (calls : List (RepositoryCall env)) :
    Store Id × (String → List (Nat × VersionReflogRecord Id)) :=
  calls.foldl (logCall P cfg) (Store.empty identity, fun _ => [])

lemma logged_logCalls (P : Prolly env) (identity : VersionRepositoryIdentity)
    (cfg : SyncSettings Id) {calls : List (RepositoryCall env)}
    (h : ∀ c ∈ calls, c.imports = false) :
    Logged P identity cfg.reflogKeepLast (logCalls P identity cfg calls).1
      (logCalls P identity cfg calls).2 := by
  induction calls using List.reverseRecOn with
  | nil => exact .empty
  | append_singleton calls call ih =>
    have happend : logCalls P identity cfg (calls ++ [call]) =
        logCall P cfg (logCalls P identity cfg calls) call := List.foldl_append ..
    rw [happend]
    exact .call (ih fun c hc => h c (List.mem_append_left _ hc)) (h call (by simp)) rfl rfl

end

namespace Digest

/-- A window of three entries. -/
def threeKept : SyncSettings Digest := { SyncSettings.unlimited [] with reflogKeepLast := 3 }

/-- A branch is made, committed on, deleted and recovered, and committed on again. -/
def movingX : List (RepositoryCall env) :=
  [.commit liveFive (commitOn "main"), .createBranch "x" "main", .commit liveSix (commitOn "x"),
    .deleteBranch "x", .recoverBranch "x" 3, .commit liveSeven (commitOn "x")]

/-- The store these calls end in, and what they logged. -/
def movedX : Store Digest × (String → List (Nat × VersionReflogRecord Digest)) :=
  logCalls (.flat env) emptyStore.identity threeKept movingX

end Digest

open Digest in
/-- Five moves are logged and three are kept: the deletion, the recovery of the head that it took
away, and the commit on it. -/
theorem moving_branch_logged :
    movedX.1.reflog "x" = (movedX.2 "x").drop 2 ∧
      (movedX.1.reflog "x").map (fun e => (e.1, e.2.previous.isSome, e.2.commit.isSome)) =
        [(3, true, false), (4, false, true), (5, true, true)] ∧
      (movedX.1.reflog "x").IsChain (fun e e' => e'.2.previous = e.2.commit) := by
  have hlogged : Logged (.flat env) emptyStore.identity 3 movedX.1 movedX.2 :=
    logged_logCalls _ _ threeKept (show ∀ c ∈ movingX, c.imports = false by decide)
  obtain ⟨-, -, hkept, hchain, -⟩ := reflog_chained _ _ (by decide) hlogged "x"
  have hlength : (movedX.2 "x").length = 5 := by decide +kernel
  rw [hlength] at hkept
  exact ⟨hkept, by decide +kernel, hchain⟩

end SlateFs.Version
