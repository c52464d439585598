import SlateFs.Version.Pick

/-!
# What a cherry-pick does

The plan of a cherry-pick decides what happens: a conflict refuses it, an empty plan
reports that the branch already has the changes, and any other plan is applied and
published. Publishing can still fail, on the protection of the branch or the limits of
the history, but never with a conflict.
-/

namespace SlateFs.Version

open OrdMap

section

variable {Id : Type} [ObjectId Id] {env : Env Id}

/-! ## Errors -/

lemma pickConflict_head (source : VersionCommit Id) (target path : String) :
    ∃ text, pickConflict source target path = .versioning text ∧ text.toList.head? = some 'c' := by
  refine ⟨_, rfl, ?_⟩
  simp only [String.toList_append, List.append_assoc]
  rfl

variable {source : VersionCommit Id} {e : Error} {s : Store Id} {cfg : Settings Id}
  {r : VersionPublishRequest Id}

lemma pickConflict_injective {target path path' : String}
    (h : pickConflict source target path = pickConflict source target path') : path = path' := by
  have := Error.versioning.inj h
  rw [← String.toList_inj] at this ⊢
  simp only [String.toList_append, List.append_cancel_left_eq] at this
  exact this

lemma bind_eq_error {ε α β : Type} {x : Except ε α} {f : α → Except ε β} {e : ε}
    (h : (x >>= f) = .error e) : x = .error e ∨ ∃ a, x = .ok a ∧ f a = .error e := by
  cases x with
  | error e' =>
    cases h
    exact .inl rfl
  | ok a => exact .inr ⟨a, rfl, h⟩

lemma refuseIf_eq_error {c : Prop} [Decidable c] {e' : Error} (h : refuseIf c e = .error e') :
    c ∧ e' = e := by
  unfold refuseIf at h
  split at h
  · rename_i hc
    cases h
    exact ⟨hc, rfl⟩
  · cases h

/-- The error is no conflict of a cherry-pick. -/
def Foreign (Id : Type) [ObjectId Id] (e : Error) : Prop :=
  ∀ (source : VersionCommit Id) (target path : String), e ≠ pickConflict source target path

lemma foreign_invalid (what reason : String) : Foreign Id (.invalid what reason) :=
  fun _ _ _ h => nomatch h

lemma foreign_versioning {text : String} (h : text.toList.head? ≠ some 'c') :
    Foreign Id (.versioning text) := by
  intro source target path heq
  obtain ⟨text', ht, hhead⟩ := pickConflict_head source target path
  cases heq.trans ht
  exact h hhead

lemma authorizeBranchPublisher_error {name : String} {commit : Id}
    {provenance : VersionCommitProvenance}
    (h : s.authorizeBranchPublisher name commit provenance = .error e) : Foreign Id e := by
  unfold Store.authorizeBranchPublisher at h
  split at h
  · cases h
  rcases bind_eq_error h with h | ⟨-, -, h⟩
  all_goals
    rw [(refuseIf_eq_error h).2]
    exact foreign_invalid _ _

lemma historyQuota_error {projected : Nat} (h : cfg.historyQuota projected = .error e) :
    Foreign Id e := by
  unfold Settings.historyQuota at h
  split at h
  · cases h
  rw [(refuseIf_eq_error h).2]
  refine foreign_versioning ?_
  simp only [String.toList_append, List.append_assoc]
  exact fun h => nomatch h

lemma appendReflog_error {now : Nat} {branch : String} {previous commit : Option Id}
    {action : VersionReflogAction}
    (h : s.appendReflog cfg now branch previous commit action = .error e) : Foreign Id e := by
  rcases bind_eq_error h with h | ⟨-, -, h⟩
  · rw [(refuseIf_eq_error h).2]
    refine foreign_versioning ?_
    simp only [String.toList_append, List.append_assoc]
    exact fun h => nomatch h
  · cases h

/-- What publishing can fail with once the branch is where it was. -/
lemma publishCommit_error {now : Nat} (hreplay : s.replay r.idempotency = .ok none)
    (hhead : s.head r.branch = r.expected) (hreq : r.requiredRef = none)
    (h : s.publishCommit cfg now r = .error e) : Foreign Id e := by
  unfold Store.publishCommit at h
  rw [hreplay] at h
  rcases bind_eq_error h with h | ⟨existing, he, h⟩
  · cases h
  cases he
  simp only [hhead, hreq] at h
  rcases bind_eq_error h with h | ⟨-, -, h⟩
  · exact absurd rfl (refuseIf_eq_error h).1
  rcases bind_eq_error h with h | ⟨-, -, h⟩
  · exact authorizeBranchPublisher_error h
  rcases bind_eq_error h with h | ⟨-, -, h⟩
  · cases h
  rcases bind_eq_error h with h | ⟨-, -, h⟩
  · exact historyQuota_error h
  rcases bind_eq_error h with h | ⟨reflogs, -, h⟩
  · exact appendReflog_error h
  · cases h

/-- Publishing a request that has not been answered before. -/
lemma publish_fresh (cfg : Settings Id) (now : Nat) (hreplay : s.replay r.idempotency = .ok none)
    (hhead : s.head r.branch = r.expected) (hreq : r.requiredRef = none) :
    (∃ e, publish cfg now r s = (.error e, s) ∧ Foreign Id e) ∨
    ∃ reflogs, publish cfg now r s = (.ok ⟨r.commit, false⟩, s.published r reflogs) := by
  unfold publish attempt
  cases hp : s.publishCommit cfg now r with
  | error e => exact .inl ⟨e, rfl, publishCommit_error hreplay hhead hreq hp⟩
  | ok out =>
    obtain ⟨outcome, s'⟩ := out
    cases outcome with
    | published =>
      obtain ⟨-, -, -, reflogs, -, rfl⟩ := publishCommit_published hp
      exact .inr ⟨reflogs, rfl⟩
    | replayed commit =>
      unfold Store.publishCommit at hp
      rw [hreplay, bind_eq_ok] at hp
      obtain ⟨existing, he, hp⟩ := hp
      cases he
      simp only [↓then_eq_ok, bind_eq_ok] at hp
      obtain ⟨-, -, -, -, _, -, hp⟩ := hp
      cases hp

/-! ## The ways a cherry-pick can end -/

/-- A request to pick a commit: everything it names can be read, and it has not been answered
before. -/
structure Pickable (P : Prolly env) (cfg : Settings Id) (s : Store Id)
    (op : VersionCherryPickOperation) (source : VersionCommit Id)
    (base target tree : Contents Id) : Prop where
  valid : validateVersionBranchName op.target = .ok ()
  resolved : s.resolveCommit op.source = .ok source
  based : ∃ parent, s.cherryPickBase source op.mainline = .ok parent ∧
    P.contents s parent = .ok base
  headed : s.targetBranch op.target = .ok (s.branches.get? op.target)
  target_read : P.contents s (s.branches.get? op.target) = .ok target
  source_read : P.load s.nodes.get? source.tree = .ok tree
  base_keyed : WellKeyed base
  target_keyed : WellKeyed target
  source_keyed : WellKeyed tree
  fresh : ∃ intent, idempotencyIntent cfg "version cherry-pick idempotency key" op.idempotencyKey
    (.cherryPick source.id op.target op.mainline op.provenance.1.author
      op.provenance.1.committer) = .ok intent ∧ s.replay intent = .ok none
  expected : requireTarget op.target (s.branches.get? op.target) op.expectedTarget = .ok ()

/-- What a cherry-pick publishes. -/
def pickRequest (P : Prolly env) (now : Nat) (s : Store Id) (op : VersionCherryPickOperation)
    (source : VersionCommit Id) (target : Contents Id) (plan : CherryPickPlan Id)
    (intent : Option (VersionCommitIdempotencyIntent Id)) : VersionPublishRequest Id :=
  { branch := op.target
    expected := s.head op.target
    requiredRef := none
    commit := pickCommit env now op source (s.branches.get? op.target)
      (P.root (target.batch plan.mutations)) plan.appliedPaths
    idempotency := intent
    reflogAction := .cherryPick }

/-- How a cherry-pick ends. -/
inductive PickEnd (P : Prolly env) (now : Nat) (s : Store Id) (op : VersionCherryPickOperation)
    (source : VersionCommit Id) (target : Contents Id) (plan : CherryPickPlan Id) :
    Except Error (VersionCherryPickInfo Id) × Store Id → Prop where
  | conflict {path : String} {rest : List String} (hc : plan.conflicts = path :: rest) :
      PickEnd P now s op source target plan (.error (pickConflict source op.target path), s)
  | noBranch (hc : plan.conflicts = []) (hm : plan.mutations = [])
      (hb : s.branches.get? op.target = none) : PickEnd P now s op source target plan
        (.error (.versioning "empty target cannot already contain a cherry-pick"), s)
  | already {head : VersionRef Id} {info : VersionCherryPickInfo Id} (hc : plan.conflicts = [])
      (hm : plan.mutations = []) (hb : s.branches.get? op.target = some head)
      (happlied : info.applied = false) (halready : info.alreadyApplied = true) :
      PickEnd P now s op source target plan (.ok info, s)
  | failed {e : Error} (hc : plan.conflicts = []) (hm : plan.mutations ≠ [])
      (he : ∀ path, e ≠ pickConflict source op.target path) :
      PickEnd P now s op source target plan
        (.error e, s.putNodes env (P.nodes (target.batch plan.mutations)))
  | published {info : VersionCherryPickInfo Id}
      {intent : Option (VersionCommitIdempotencyIntent Id)}
      {reflogs : OrdMap (String ×ₗ Nat) (VersionReflogRecord Id)} (hc : plan.conflicts = [])
      (hm : plan.mutations ≠ []) (happlied : info.applied = true)
      (halready : info.alreadyApplied = false) : PickEnd P now s op source target plan
        (.ok info, (s.putNodes env (P.nodes (target.batch plan.mutations))).published
          (pickRequest P now s op source target plan intent) reflogs)

lemma pick_ends {P : Prolly env} {op : VersionCherryPickOperation}
    {base target tree : Contents Id} (h : Pickable P cfg s op source base target tree) (now : Nat) :
    ∃ plan parent, s.cherryPickBase source op.mainline = .ok parent ∧
      pickPlan P s parent (s.branches.get? op.target) source = .ok plan ∧
      Planned base target tree plan ∧
      PickEnd P now s op source target plan (cherryPickInner P cfg now op s) := by
  obtain ⟨parent, hparent, hbase⟩ := h.based
  obtain ⟨intent, hintent, hreplay⟩ := h.fresh
  obtain ⟨plan, hplan⟩ := cherryPickPlan_isOk h.base_keyed h.target_keyed h.source_keyed
  have hpick : pickPlan P s parent (s.branches.get? op.target) source = .ok plan := by
    unfold pickPlan
    rw [hbase, h.target_read, h.source_read]
    exact hplan
  refine ⟨plan, parent, hparent, hpick, cherryPickPlan_ok hplan, ?_⟩
  unfold cherryPickInner
  simp only [h.valid, h.resolved, hparent, hintent, h.headed, hreplay, h.expected, hpick, attempt,
    h.target_read, P.batch_eq]
  cases hc : plan.conflicts with
  | cons path rest => exact .conflict hc
  | nil =>
    by_cases hm : plan.mutations = []
    · have halready : plan.alreadyApplied = true := by
        rw [(cherryPickPlan_ok hplan).alreadyApplied, hm, hc]
        rfl
      rw [hm, List.isEmpty_nil, if_pos rfl]
      cases hb : s.branches.get? op.target with
      | none => exact .noBranch hc hm hb
      | some head => exact .already hc hm hb rfl halready
    · rw [if_neg (by simpa using hm)]
      rcases publish_fresh cfg now (s := s.putNodes env (P.nodes (target.batch plan.mutations)))
        (r := pickRequest P now s op source target plan intent) hreplay rfl rfl with
        ⟨e, hp, he⟩ | ⟨reflogs, hp⟩
      · unfold pickRequest Objects.head at hp
        rw [hp]
        exact .failed hc hm (he source op.target)
      · unfold pickRequest Objects.head at hp
        rw [hp]
        exact .published hc hm rfl rfl

/-! ## Picking twice -/

section

variable {P : Prolly env} {cfg : Settings Id} {s : Store Id} {op op' : VersionCherryPickOperation}
  {source : VersionCommit Id} {base target tree : Contents Id} {plan : CherryPickPlan Id}
  {s' : Store Id} {now : Nat} {intent : Option (VersionCommitIdempotencyIntent Id)}
  {reflogs : OrdMap (String ×ₗ Nat) (VersionReflogRecord Id)}

/-- The tree of the branch after a cherry-pick. -/
lemma contents_published (hinj : Function.Injective env.nodeDigest)
    (hs' : s' = (s.putNodes env (P.nodes (target.batch plan.mutations))).published
      (pickRequest P now s op source target plan intent) reflogs) :
    P.contents s' (s'.branches.get? op.target) = .ok (target.batch plan.mutations) := by
  subst hs'
  show P.contents _ ((OrdMap.insert _ op.target (VersionCommit.ref _)).get? op.target) = _
  rw [get?_insert_self]
  exact P.load_root _ _ fun n hn => get?_putNodes hinj hn

/-- A commit that is there stays there when another one is published. -/
lemma Addressed.getCommit_published {s : Store Id} (hs : Addressed env s)
    (hinj : Function.Injective env.commitDigest) {r : VersionPublishRequest Id}
    {body : VersionCommitBody Id} (hr : r.commit = .ofBody env body) {id : Id}
    {c : VersionCommit Id} (h : s.getCommit id = .ok c) :
    (s.published r reflogs).getCommit id = .ok c := by
  rw [Objects.getCommit_eq_ok] at h ⊢
  refine ⟨h.1, ?_⟩
  show (s.commits.insert r.commit.id r.commit.toVersionCommitBody).get? id = _
  rw [get?_insert]
  split
  · rename_i hid
    rw [hr] at hid ⊢
    exact congrArg some (hinj (hid.symm.trans (hs.commit _ _ h.2).symm))
  · exact h.2

/-- The same commit is picked again: the same target and parent, and the commit is still found. -/
structure PicksAgain (cfg : Settings Id) (s : Store Id) (source : VersionCommit Id)
    (op op' : VersionCherryPickOperation) : Prop where
  target : op'.target = op.target
  mainline : op'.mainline = op.mainline
  resolved : s.resolveCommit op'.source = .ok source
  fresh : ∃ intent, idempotencyIntent cfg "version cherry-pick idempotency key" op'.idempotencyKey
    (.cherryPick source.id op'.target op'.mainline op'.provenance.1.author
      op'.provenance.1.committer) = .ok intent ∧ s.replay intent = .ok none
  expected : requireTarget op'.target (s.branches.get? op'.target) op'.expectedTarget = .ok ()

/-- What a base is taken from is the same in a store with more commits. -/
lemma cherryPickBase_congr {s s' : Store Id} {mainline : Option Nat}
    {parent : Option (VersionRef Id)}
    (hget : ∀ id c, s.getCommit id = .ok c → s'.getCommit id = .ok c)
    (h : s.cherryPickBase source mainline = .ok parent) :
    s'.cherryPickBase source mainline = .ok parent := by
  unfold Store.cherryPickBase at h ⊢
  simp only [bind_eq_ok] at h ⊢
  obtain ⟨p, hp, h⟩ := h
  refine ⟨p, hp, ?_⟩
  cases p with
  | none => exact h
  | some p =>
    simp only [bind_eq_ok] at h ⊢
    obtain ⟨c, hc, h⟩ := h
    exact ⟨c, hget _ _ hc, h⟩

/-- After a cherry-pick the same one can be asked for again, of the new tree. -/
lemma pickable_again (hinj : env.Injective) (hs : Addressed env s)
    (h : Pickable P cfg s op source base target tree) (hplan : Planned base target tree plan)
    (hs' : s' = (s.putNodes env (P.nodes (target.batch plan.mutations))).published
      (pickRequest P now s op source target plan intent) reflogs)
    (hagain : PicksAgain cfg s' source op op') :
    Pickable P cfg s' op' source base (target.batch plan.mutations) tree := by
  obtain ⟨parent, hparent, hbase⟩ := h.based
  have hput : Addressed env (s.putNodes env (P.nodes (target.batch plan.mutations))) := by
    refine ⟨fun id n hn => ?_, hs.commit⟩
    rcases mem_of_get?_insertAll hn with hn | hn
    · exact hs.node id n hn
    obtain ⟨n', -, he⟩ := List.mem_map.mp hn
    cases he
    rfl
  refine ⟨hagain.target ▸ h.valid, hagain.resolved, ⟨parent, ?_, ?_⟩, ?_, ?_, ?_, h.base_keyed,
    hplan.wellKeyed h.target_keyed h.source_keyed, h.source_keyed, hagain.fresh, hagain.expected⟩
  · rw [hagain.mainline]
    subst hs'
    exact cherryPickBase_congr (fun id c hc => hput.getCommit_published hinj.commit rfl hc) hparent
  · subst hs'
    cases parent with
    | none => exact hbase
    | some parent => exact hs.load_putNodes hinj.node hbase
  · unfold Store.targetBranch
    rw [bind_eq_ok]
    refine ⟨(), refuseIf_eq_ok.mpr fun hnone => ?_, rfl⟩
    have hsome : s'.branches.get? op'.target =
        some (pickRequest P now s op source target plan intent).commit.ref := by
      rw [hagain.target, hs']
      exact get?_insert_self ..
    rw [hsome] at hnone
    cases hnone.2
  · rw [hagain.target]
    exact contents_published hinj.node hs'
  · subst hs'
    exact hs.load_putNodes hinj.node h.source_read

end

/-- **The laws of cherry-picks.** What is published is the source on the paths that its delta
touches and the target elsewhere. A conflict is reported just when some touched path is neither
as in the parent nor as in the source, and nothing is stored then; no failed pick moves a branch.
Onto the parent itself the pick gives the source, picked again it is already applied, and the
preview shows the conflicts and the verdict. -/
theorem cherry_pick_laws (hinj : env.Injective) {P : Prolly env} {cfg : Settings Id}
    {s : Store Id} (hs : Addressed env s) {op : VersionCherryPickOperation}
    {source : VersionCommit Id} {base target tree : Contents Id}
    (h : Pickable P cfg s op source base target tree) (now : Nat)
    {r : Except Error (VersionCherryPickInfo Id)} {s' : Store Id}
    (hr : cherryPickInner P cfg now op s = (r, s')) :
    (∀ info, r = .ok info → info.applied = true →
      ∃ new, P.contents s' (s'.branches.get? op.target) = .ok new ∧
        ∀ p, (Touched base tree p → SameAt p new tree) ∧
          (¬ Touched base tree p → SameAt p new target)) ∧
    ((∃ path, r = .error (pickConflict source op.target path)) ↔
      ∃ p, Touched base tree p ∧ ¬ SameAt p target base ∧ ¬ SameAt p target tree) ∧
    ((∃ path, r = .error (pickConflict source op.target path)) → s' = s) ∧
    (∀ e, r = .error e → s'.branches = s.branches) ∧
    (target = base → ∀ info, r = .ok info →
      P.contents s' (s'.branches.get? op.target) = .ok tree) ∧
    (∀ info, r = .ok info → info.applied = true → ∀ now' op', PicksAgain cfg s' source op op' →
      ∃ info', cherryPickInner P cfg now' op' s' = (.ok info', s') ∧
        info'.applied = false ∧ info'.alreadyApplied = true) ∧
    ∃ preview, previewCherryPick P s op.source op.target op.mainline = .ok preview ∧
      (∀ p, p ∈ preview.conflicts ↔
        Touched base tree p ∧ ¬ SameAt p target tree ∧ ¬ SameAt p target base) ∧
      (∀ path, r = .error (pickConflict source op.target path) ↔
        preview.conflicts.head? = some path) ∧
      (∀ info, r = .ok info → info.alreadyApplied = preview.alreadyApplied) ∧
      (preview.alreadyApplied = true → (s.branches.get? op.target).isSome →
        ∃ info, r = .ok info ∧ info.alreadyApplied = true) := by
  obtain ⟨plan, parent, hparent, hpick, hplan, hend⟩ := pick_ends h now
  rw [hr] at hend
  -- no other ending has the message of a conflict
  have hconflict : (∃ path, r = .error (pickConflict source op.target path)) ↔
      plan.conflicts ≠ [] := by
    cases hend with
    | conflict hc => simp [hc]
    | noBranch hc _ _ =>
      simp only [hc, ne_eq, not_true_eq_false, iff_false, not_exists, Except.error.injEq]
      exact foreign_versioning (by decide) source op.target
    | failed hc _ he => simpa [hc] using he
    | already hc | published hc => simp [hc]
  refine ⟨?_, hconflict.trans hplan.conflicts_ne_nil, ?_, ?_, ?_, ?_, ?_⟩
  · rintro info rfl happlied
    cases hend with
    | already _ _ _ hno _ =>
      rw [hno] at happlied
      cases happlied
    | published hc _ _ _ =>
      exact ⟨_, contents_published hinj.node rfl, hplan.picked hc⟩
  · intro hex
    -- objects are stored only once the plan has no conflict
    cases hend with
    | failed hc | published hc => exact absurd hc (hconflict.mp hex)
    | _ => rfl
  · rintro e rfl
    cases hend <;> rfl
  · rintro rfl info rfl
    cases hend with
    | already hc hm _ _ _ =>
      have := hplan.onto_parent hc
      rw [hm] at this
      rw [h.target_read, ← this]
      rfl
    | published hc _ _ _ =>
      rw [contents_published hinj.node rfl, hplan.onto_parent hc]
  · rintro info rfl happlied now' op' hagain
    cases hend with
    | already _ _ _ hno _ =>
      rw [hno] at happlied
      cases happlied
    | published hc _ _ _ =>
      -- the second plan has nothing left to do, and only one ending fits that
      obtain ⟨plan', -, -, -, hplan', hend'⟩ :=
        pick_ends (pickable_again hinj hs h hplan rfl hagain) now'
      obtain ⟨hm', hc'⟩ := hplan'.empty_of_same fun p => (hplan.picked hc p).1
      generalize hout : cherryPickInner P cfg now' op' _ = out at hend' ⊢
      cases hend' with
      | conflict hc => rw [hc'] at hc; cases hc
      | noBranch _ _ hb =>
        rw [hagain.target] at hb
        exact absurd hb (by simp [Store.published, pickRequest])
      | already _ _ _ hno hyes => exact ⟨_, rfl, hno, hyes⟩
      | failed _ hm | published _ hm => exact absurd hm' hm
  · -- the preview makes the same plan
    have hpreview : previewCherryPick P s op.source op.target op.mainline = .ok ⟨source.id,
        op.target, (s.branches.get? op.target).map (·.commitId), parent.map (·.commitId),
        op.mainline, plan.sourcePaths, plan.conflicts, plan.alreadyApplied⟩ := by
      unfold previewCherryPick
      simp only [↓then_eq_ok, bind_eq_ok]
      exact ⟨h.valid, source, h.resolved, _, h.headed, parent, hparent, plan, hpick, rfl⟩
    refine ⟨_, hpreview, hplan.conflicts, fun path => ?_, ?_, ?_⟩
    · cases hend with
      | conflict hc =>
        rw [hc, List.head?_cons, Option.some.injEq, Except.error.injEq]
        exact ⟨pickConflict_injective, fun h => by rw [h]⟩
      | noBranch hc _ _ =>
        rw [hc]
        exact ⟨fun he => absurd hc (hconflict.mp ⟨path, he⟩), nofun⟩
      | failed hc _ he =>
        rw [hc]
        exact ⟨fun h => absurd (Except.error.inj h) (he path), nofun⟩
      | already hc | published hc =>
        rw [hc]
        exact ⟨nofun, nofun⟩
    · rintro info rfl
      rw [hplan.alreadyApplied]
      cases hend with
      | already hc hm _ _ hyes =>
        rw [hc, hm, hyes]
        rfl
      | published hc hm _ hno => simp [hno, hm]
    · intro halready hbranch
      rw [hplan.alreadyApplied] at halready
      have hnone : plan.mutations = [] ∧ plan.conflicts = [] := by simpa using halready
      cases hend with
      | conflict hc =>
        rw [hnone.2] at hc
        cases hc
      | noBranch _ _ hb =>
        rw [hb] at hbranch
        cases hbranch
      | already _ _ _ _ hyes => exact ⟨_, rfl, hyes⟩
      | failed _ hm | published _ hm => exact absurd hnone.1 hm

end

/-! ## A small cherry-pick -/

lemma wellKeyed_of_all {Id : Type} {m : Contents Id}
    (h : m.entries.all (fun e => (versionPathFromTreeKey e.1).toBool) = true) : WellKeyed m := by
  refine wellKeyed_iff.mpr fun e he => ?_
  have := List.all_eq_true.mp h e he
  cases hk : versionPathFromTreeKey e.1 with
  | error err =>
    rw [hk] at this
    cases this
  | ok r => exact ⟨r, rfl⟩

/-- Whether a cherry-pick has applied something. -/
def picksSomething {Id : Type} [ObjectId Id]
    (r : Except Error (VersionCherryPickInfo Id) × Store Id) : Bool :=
  match r.1 with
  | .ok info => info.applied
  | .error _ => false

lemma exists_of_picksSomething {Id : Type} [ObjectId Id]
    {r : Except Error (VersionCherryPickInfo Id) × Store Id} (h : picksSomething r = true) :
    ∃ info s', r = (.ok info, s') ∧ info.applied = true := by
  unfold picksSomething at h
  split at h
  · rename_i info hr
    exact ⟨info, r.2, Prod.ext hr rfl, h⟩
  · cases h

namespace Digest

/-- A tree with one directory. -/
def dirTree (mode : Nat) : Contents Digest :=
  insertAll ∅ [(fileMetaKey "/d", .entry ⟨mode, 0, 0, 0, ⟨0, 0⟩, ⟨0, 0⟩, .directory⟩)]

def bodyOf (parents : List Digest) (tree : Contents Digest) (createdAt : Nat) :
    VersionCommitBody Digest :=
  ⟨parents, (Prolly.flat env).root tree, createdAt, "", ["/d"], who⟩

/-- A repository of some trees without chunks, with commits on them and branches. -/
def repo (trees : List (Contents Digest)) (commits : List (VersionCommitBody Digest))
    (branches : List (String × VersionCommitBody Digest)) : Store Digest :=
  { emptyStore with
    nodes := insertAll ∅
      ((trees.flatMap (Prolly.flat env).nodes).map fun n => (env.nodeDigest n, n))
    commits := insertAll ∅ (commits.map fun c => (idOf c, c))
    branches := insertAll ∅ (branches.map fun e => (e.1, ⟨idOf e.2, e.2.tree⟩)) }

lemma repo_addressed (trees : List (Contents Digest)) (commits : List (VersionCommitBody Digest))
    (branches : List (String × VersionCommitBody Digest)) :
    Addressed env (repo trees commits branches) := by
  refine ⟨fun id n hn => ?_, fun id body hb => ?_⟩
  · obtain ⟨n', -, he⟩ := List.mem_map.mp ((mem_of_get?_insertAll hn).resolve_left nofun)
    cases he
    rfl
  · obtain ⟨b, -, he⟩ := List.mem_map.mp ((mem_of_get?_insertAll hb).resolve_left nofun)
    cases he
    rfl

def before : VersionCommitBody Digest := bodyOf [] (dirTree 1) 0

def change : VersionCommitBody Digest := bodyOf [idOf before] (dirTree 2) 1

/-- `topic` is one commit ahead of `main`. -/
def ahead : Store Digest :=
  repo [dirTree 1, dirTree 2] [before, change] [("main", before), ("topic", change)]

def pickTopic : VersionCherryPickOperation :=
  ⟨"topic", "main", none, none, ⟨who, who_checked⟩, none⟩

lemma pickTopic_pickable : Pickable (.flat env) (.unlimited []) ahead pickTopic
    ⟨change, idOf change⟩ (dirTree 1) (dirTree 1) (dirTree 2) where
  valid := by decide +kernel
  resolved := by decide +kernel
  based := ⟨some ⟨idOf before, before.tree⟩, by decide +kernel, by decide +kernel⟩
  headed := by decide +kernel
  target_read := by decide +kernel
  source_read := by decide +kernel
  base_keyed := wellKeyed_of_all (by decide +kernel)
  target_keyed := wellKeyed_of_all (by decide +kernel)
  source_keyed := wellKeyed_of_all (by decide +kernel)
  fresh := ⟨none, rfl, rfl⟩
  expected := rfl

end Digest

open Digest in
theorem pick_topic_onto_main : ∃ info s',
    cherryPickInner (.flat env) (.unlimited []) 0 pickTopic ahead = (.ok info, s') ∧
      info.applied = true ∧
      ∃ new, (Prolly.flat env).contents s' (s'.branches.get? "main") = .ok new ∧
        ∀ p, (Touched (dirTree 1) (dirTree 2) p → SameAt p new (dirTree 2)) ∧
          (¬ Touched (dirTree 1) (dirTree 2) p → SameAt p new (dirTree 1)) := by
  obtain ⟨info, s', h, happlied⟩ := exists_of_picksSomething
    (r := cherryPickInner (.flat env) (.unlimited []) 0 pickTopic ahead) (by decide +kernel)
  exact ⟨info, s', h, happlied, (cherry_pick_laws env_injective (repo_addressed ..)
    pickTopic_pickable 0 h).1 info rfl happlied⟩

end SlateFs.Version
