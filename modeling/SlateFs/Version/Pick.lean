import SlateFs.Version.Commit
import SlateFs.Version.Merge

/-!
# Cherry-picks

A cherry-pick applies the difference between a commit and one of its parents to
another branch. Unlike a merge it compares whole paths: the planner collects for every
path that the difference touches all its keys in the three trees. A path is skipped
where the target already is as the source, taken over where the target is as the
parent, and a conflict otherwise.
-/

namespace SlateFs.Version

open OrdMap PathSet

/-! ## The states of paths -/

section

variable {Id : Type}

/-- The keys of a path, with their values. -/
abbrev PathState (Id : Type) := OrdMap TreeKey (TreeValue Id)

def foldState (paths : PathSet) (states : OrdMap String (PathState Id))
    (e : TreeKey × TreeValue Id) : Except Error (OrdMap String (PathState Id)) :=
  match versionPathFromTreeKey e.1 with
  | .error err => .error err
  | .ok (path, _) =>
    .ok (if (paths.get? path).isSome then
      states.insert path (((states.get? path).getD ∅).insert e.1 e.2)
    else states)

/-- `tree_path_states` -/
def treePathStates (tree : Contents Id) (paths : PathSet) :
    Except Error (OrdMap String (PathState Id)) :=
  tree.entries.foldlM (foldState paths) ∅

/-- Every key of a tree is the key of a path. -/
def WellKeyed (m : Contents Id) : Prop :=
  ∀ k v, m.get? k = some v → ∃ r, versionPathFromTreeKey k = .ok r

/-- The state of a path in a tree. -/
def stateAt (m : Contents Id) (p : String) : PathState Id := m.filter fun k => logicalPath k = p

variable {m : Contents Id} {p : String} {paths : PathSet}

lemma get?_stateAt {k : TreeKey} :
    (stateAt m p).get? k = if logicalPath k = p then m.get? k else none := by
  rw [stateAt, get?_filter]
  simp only [decide_eq_true_eq]

lemma stateAt_eq_iff {n : Contents Id} : stateAt m p = stateAt n p ↔ SameAt p m n := by
  constructor
  · intro h k hk
    have := congrArg (OrdMap.get? · k) h
    simpa only [stateAt, get?_filter, hk, decide_true, if_true] using this
  · intro h
    refine OrdMap.ext fun k => ?_
    rw [stateAt, stateAt, get?_filter, get?_filter]
    by_cases hk : logicalPath k = p
    · simp only [hk, decide_true, if_true]
      exact h k hk
    · simp [hk]

lemma foldState_ok (hp : (paths.get? p).isSome) :
    ∀ {es : List (TreeKey × TreeValue Id)} {st st' : OrdMap String (PathState Id)},
    es.foldlM (foldState paths) st = .ok st' → (st'.get? p).getD ∅ =
      ((st.get? p).getD ∅).insertAll (es.filter fun e => logicalPath e.1 = p)
  | [], st, st', h => by
    cases h
    rfl
  | e :: es, st, st', h => by
    rw [List.foldlM_cons, bind_eq_ok] at h
    obtain ⟨st₁, h₁, h⟩ := h
    rw [foldState_ok hp h, List.filter_cons]
    unfold foldState at h₁
    split at h₁
    · cases h₁
    rename_i path b hpath
    have hlog : logicalPath e.1 = path := by rw [logicalPath, hpath]
    cases h₁
    by_cases hpp : path = p
    · subst hpp
      rw [if_pos hp, get?_insert_self, if_pos (by rw [hlog]; simp)]
      rfl
    · have hout : ¬ decide (logicalPath e.1 = p) = true := by rw [hlog]; simpa using hpp
      split
      · rw [get?_insert_of_ne _ _ (Ne.symm hpp)]
      · rfl

lemma foldState_isOk : ∀ {es : List (TreeKey × TreeValue Id)}
    {st : OrdMap String (PathState Id)}, (∀ e ∈ es, ∃ r, versionPathFromTreeKey e.1 = .ok r) →
    ∃ st', es.foldlM (foldState paths) st = .ok st'
  | [], st, _ => ⟨st, rfl⟩
  | e :: es, st, h => by
    obtain ⟨r, hr⟩ := h e (List.mem_cons_self ..)
    obtain ⟨st', hst'⟩ : ∃ st', es.foldlM (foldState paths) (if (paths.get? r.1).isSome then
        st.insert r.1 (((st.get? r.1).getD ∅).insert e.1 e.2) else st) = .ok st' :=
      foldState_isOk fun e' he' => h e' (List.mem_cons_of_mem _ he')
    refine ⟨st', ?_⟩
    rw [List.foldlM_cons, bind_eq_ok]
    exact ⟨_, by rw [foldState, hr], hst'⟩

lemma wellKeyed_iff : WellKeyed m ↔ ∀ e ∈ m.entries, ∃ r, versionPathFromTreeKey e.1 = .ok r :=
  ⟨fun h e he => h e.1 e.2 (mem_entries.mp he), fun h k v hk => h (k, v) (mem_entries.mpr hk)⟩

/-- **The states that the planner collects.** -/
theorem treePathStates_spec {states : OrdMap String (PathState Id)}
    (h : treePathStates m paths = .ok states) (hp : (paths.get? p).isSome) :
    (states.get? p).getD ∅ = stateAt m p := by
  rw [foldState_ok hp h, get?_empty, Option.getD_none]
  exact insertAll_entries (stateAt m p)

lemma treePathStates_isOk (paths : PathSet) (h : WellKeyed m) :
    ∃ states, treePathStates m paths = .ok states := foldState_isOk (wellKeyed_iff.mp h)

/-! ## Plans -/

structure CherryPickPlan (Id : Type) where
  mutations : List (Mutation TreeKey (TreeValue Id))
  sourcePaths : List String
  appliedPaths : List String
  conflicts : List String
  alreadyApplied : Bool

/-- The difference between a parent and a commit touches a path. -/
def Touched (base source : Contents Id) (p : String) : Prop := ¬ SameAt p base source

/-- What a plan says about every path. -/
structure Planned (base target source : Contents Id) (plan : CherryPickPlan Id) : Prop where
  sourcePaths : ∀ p, p ∈ plan.sourcePaths ↔ Touched base source p
  conflicts : ∀ p, p ∈ plan.conflicts ↔
    Touched base source p ∧ ¬ SameAt p target source ∧ ¬ SameAt p target base
  appliedPaths : ∀ p, p ∈ plan.appliedPaths ↔
    Touched base source p ∧ ¬ SameAt p target source ∧ SameAt p target base
  mutation : ∀ mu, mu ∈ plan.mutations ↔ logicalPath mu.key ∈ plan.appliedPaths ∧
    target.get? mu.key ≠ source.get? mu.key ∧ mu = .of mu.key (source.get? mu.key)
  sorted : plan.appliedPaths.Pairwise (· < ·)
  alreadyApplied : plan.alreadyApplied = (plan.mutations.isEmpty && plan.conflicts.isEmpty)

namespace Planned

variable {base target source : Contents Id} {plan : CherryPickPlan Id}

section

variable (h : Planned base target source plan)
include h

/-- The tree that a plan makes. -/
lemma get?_batch (k : TreeKey) :
    (target.batch plan.mutations).get? k =
      if logicalPath k ∈ plan.appliedPaths then source.get? k else target.get? k := by
  by_cases hmu : ∃ mu ∈ plan.mutations, mu.key = k
  · obtain ⟨mu, hmem, rfl⟩ := hmu
    rw [if_pos ((h.mutation mu).mp hmem).1]
    refine get?_batch_of_mem ⟨mu, hmem, rfl⟩ fun mu' hmem' hk => ?_
    rw [((h.mutation mu').mp hmem').2.2, Mutation.result_of, hk]
  · rw [get?_batch_of_not_mem fun mu hmem hk => hmu ⟨mu, hmem, hk⟩]
    split
    · rename_i hap
      by_contra hne
      refine hmu ⟨.of k (source.get? k), (h.mutation _).mpr ?_, Mutation.key_of ..⟩
      rw [Mutation.key_of]
      exact ⟨hap, hne, rfl⟩
    · rfl

/-- **Without conflicts a touched path becomes as in the source, and no other path changes.** -/
theorem picked (hc : plan.conflicts = []) (p : String) :
    (Touched base source p → SameAt p (target.batch plan.mutations) source) ∧
      (¬ Touched base source p → SameAt p (target.batch plan.mutations) target) := by
  constructor
  · intro ht k hk
    rw [h.get?_batch]
    split
    · rfl
    rename_i hap
    rw [hk, h.appliedPaths] at hap
    by_contra hne
    have hdiffer : ¬ SameAt p target source := fun hsame => hne (hsame k hk)
    have hchanged : ¬ SameAt p target base := fun hsame => hap ⟨ht, hdiffer, hsame⟩
    have := (h.conflicts p).mpr ⟨ht, hdiffer, hchanged⟩
    rw [hc] at this
    cases this
  · intro ht k hk
    rw [h.get?_batch, if_neg]
    intro hap
    rw [hk] at hap
    exact ht ((h.appliedPaths p).mp hap).1

lemma conflicts_ne_nil :
    plan.conflicts ≠ [] ↔
      ∃ p, Touched base source p ∧ ¬ SameAt p target base ∧ ¬ SameAt p target source := by
  constructor
  · intro hne
    obtain ⟨p, hp⟩ := List.exists_mem_of_ne_nil _ hne
    obtain ⟨h1, h2, h3⟩ := (h.conflicts p).mp hp
    exact ⟨p, h1, h3, h2⟩
  · rintro ⟨p, h1, h3, h2⟩
    exact List.ne_nil_of_mem ((h.conflicts p).mpr ⟨h1, h2, h3⟩)

/-- Where the target has all that is touched, the plan is empty. -/
lemma empty_of_same (hsame : ∀ p, Touched base source p → SameAt p target source) :
    plan.mutations = [] ∧ plan.conflicts = [] := by
  constructor
  · rw [List.eq_nil_iff_forall_not_mem]
    intro mu hmu
    obtain ⟨ht, hdiffer, -⟩ := (h.appliedPaths _).mp ((h.mutation mu).mp hmu).1
    exact hdiffer (hsame _ ht)
  · by_contra hne
    obtain ⟨p, ht, -, hdiffer⟩ := h.conflicts_ne_nil.mp hne
    exact hdiffer (hsame p ht)

end

/-- On the parent itself the plan makes the source. -/
lemma onto_parent (h : Planned base base source plan) (hc : plan.conflicts = []) :
    base.batch plan.mutations = source := by
  refine OrdMap.ext fun k => ?_
  by_cases ht : Touched base source (logicalPath k)
  · exact (h.picked hc _).1 ht k rfl
  · rw [(h.picked hc _).2 ht k rfl]
    exact not_not.mp ht k rfl

lemma wellKeyed (h : Planned base target source plan) (ht : WellKeyed target)
    (hs : WellKeyed source) : WellKeyed (target.batch plan.mutations) := by
  intro k v hk
  rw [h.get?_batch] at hk
  split at hk
  · exact hs k v hk
  · exact ht k v hk

end Planned

end

/-! ## The planner -/

section

variable {Id : Type} [ObjectId Id] {env : Env Id} {P : Prolly env}

/-- What becomes of one path: the changes of its keys, or a conflict. -/
inductive PathPick (Id : Type) where
  | skip
  | conflict
  | apply (mutations : List (Mutation TreeKey (TreeValue Id)))

def PathPick.of (base target source : PathState Id) : PathPick Id :=
  if target = source then .skip
  else if target ≠ base then .conflict
  else .apply ((diff target source).map fun d => .of d.key d.result)

namespace PathPick

def mutations : PathPick Id → List (Mutation TreeKey (TreeValue Id))
  | .apply ms => ms
  | _ => []

def isConflict : PathPick Id → Bool
  | .conflict => true
  | _ => false

def isApply : PathPick Id → Bool
  | .apply _ => true
  | _ => false

end PathPick

/-- `cherry_pick_plan` -/
def cherryPickPlan (P : Prolly env) (base target source : Contents Id) :
    Except Error (CherryPickPlan Id) := do
  let touched ← (P.diff base source).mapM fun d => versionPathFromTreeKey d.key
  let sourcePaths := PathSet.ofList (touched.map (·.1))
  let baseStates ← treePathStates base sourcePaths
  let targetStates ← treePathStates target sourcePaths
  let sourceStates ← treePathStates source sourcePaths
  let pick := fun path => PathPick.of ((baseStates.get? path).getD ∅)
    ((targetStates.get? path).getD ∅) ((sourceStates.get? path).getD ∅)
  let mutations := sourcePaths.toList.flatMap fun path => (pick path).mutations
  let conflicts := sourcePaths.toList.filter fun path => (pick path).isConflict
  return {
    mutations := mutations
    sourcePaths := sourcePaths.toList
    appliedPaths := sourcePaths.toList.filter fun path => (pick path).isApply
    conflicts := conflicts
    alreadyApplied := mutations.isEmpty && conflicts.isEmpty }

/-! ## What is planned -/

lemma logicalPath_of_ok {k : TreeKey} {r : String × Bool}
    (h : versionPathFromTreeKey k = .ok r) : logicalPath k = r.1 := by
  rw [logicalPath, h]

variable {base source target : Contents Id} {p : String}

lemma mem_touched {touched : List (String × Bool)}
    (h : (P.diff base source).mapM (fun d => versionPathFromTreeKey d.key) = .ok touched) :
    p ∈ (ofList (touched.map (·.1))).toList ↔ Touched base source p := by
  rw [P.diff_eq] at h
  rw [mem_ofList, List.mem_map]
  constructor
  · rintro ⟨r, hr, rfl⟩ hsame
    obtain ⟨d, hd, hpath⟩ := (mem_mapM h).mp hr
    exact (diff_spec hd).1 (hsame _ (logicalPath_of_ok hpath))
  · intro htouched
    have : ∃ k, logicalPath k = p ∧ base.get? k ≠ source.get? k := by
      by_contra hnone
      refine htouched fun k hk => ?_
      by_contra hne
      exact hnone ⟨k, hk, hne⟩
    obtain ⟨k, hk, hne⟩ := this
    obtain ⟨d, hd, rfl⟩ := exists_diff.mpr hne
    obtain ⟨r, hr⟩ := (mapM_ok.mp ⟨touched, h⟩) d hd
    exact ⟨r, (mem_mapM h).mpr ⟨d, hd, hr⟩, by rw [← hk, logicalPath_of_ok hr]⟩

lemma mem_pathPick {mu : Mutation TreeKey (TreeValue Id)} :
    mu ∈ (PathPick.of (stateAt base p) (stateAt target p) (stateAt source p)).mutations ↔
      ¬ SameAt p target source ∧ SameAt p target base ∧ logicalPath mu.key = p ∧
        target.get? mu.key ≠ source.get? mu.key ∧ mu = .of mu.key (source.get? mu.key) := by
  rw [← stateAt_eq_iff, ← stateAt_eq_iff]
  unfold PathPick.of
  split
  · rename_i h
    simp [PathPick.mutations, h]
  rename_i h
  split
  · rename_i h'
    simp [PathPick.mutations, h']
  rename_i h'
  rw [and_iff_right h, and_iff_right (not_not.mp h')]
  rw [PathPick.mutations, List.mem_map]
  constructor
  · rintro ⟨d, hd, rfl⟩
    obtain ⟨hne, hres⟩ := diff_spec hd
    rw [get?_stateAt, get?_stateAt] at hne
    rw [get?_stateAt] at hres
    rw [Mutation.key_of]
    by_cases hp : logicalPath d.key = p
    · rw [if_pos hp, if_pos hp] at hne
      rw [if_pos hp] at hres
      exact ⟨hp, hne, by rw [hres]⟩
    · rw [if_neg hp, if_neg hp] at hne
      exact absurd rfl hne
  · rintro ⟨hp, hne, hmu⟩
    have : (stateAt target p).get? mu.key ≠ (stateAt source p).get? mu.key := by
      rwa [get?_stateAt, get?_stateAt, if_pos hp, if_pos hp]
    obtain ⟨d, hd, hk⟩ := exists_diff.mpr this
    refine ⟨d, hd, ?_⟩
    rw [(diff_spec hd).2, hk, get?_stateAt, if_pos hp]
    exact hmu.symm

lemma pathPick_isConflict :
    (PathPick.of (stateAt base p) (stateAt target p) (stateAt source p)).isConflict = true ↔
      ¬ SameAt p target source ∧ ¬ SameAt p target base := by
  rw [← stateAt_eq_iff, ← stateAt_eq_iff]
  unfold PathPick.of
  split
  · simp_all [PathPick.isConflict]
  · split <;> simp_all [PathPick.isConflict]

lemma pathPick_isApply :
    (PathPick.of (stateAt base p) (stateAt target p) (stateAt source p)).isApply = true ↔
      ¬ SameAt p target source ∧ SameAt p target base := by
  rw [← stateAt_eq_iff, ← stateAt_eq_iff]
  unfold PathPick.of
  split
  · simp_all [PathPick.isApply]
  · split <;> simp_all [PathPick.isApply]

/-- **What the planner plans.** -/
theorem cherryPickPlan_ok {plan : CherryPickPlan Id}
    (h : cherryPickPlan P base target source = .ok plan) : Planned base target source plan := by
  unfold cherryPickPlan at h
  simp only [bind_eq_ok] at h
  obtain ⟨touched, ht, bs, hb, ts, htg, ss, hs, h⟩ := h
  cases h
  have hmem := fun p => mem_touched ht (p := p)
  have hpick : ∀ p ∈ (ofList (touched.map (·.1))).toList,
      PathPick.of ((bs.get? p).getD ∅) ((ts.get? p).getD ∅) ((ss.get? p).getD ∅) =
        PathPick.of (stateAt base p) (stateAt target p) (stateAt source p) := by
    intro p hp
    have : ((ofList (touched.map (·.1))).get? p).isSome := by
      rw [mem_toList.mp hp]
      rfl
    rw [treePathStates_spec hb this, treePathStates_spec htg this, treePathStates_spec hs this]
  refine ⟨hmem, fun p => ?_, fun p => ?_, fun mu => ?_, ?_, rfl⟩
  · simp only [List.mem_filter]
    rw [hmem]
    refine and_congr_right fun htouched => ?_
    rw [hpick p ((hmem p).mpr htouched), pathPick_isConflict]
  · simp only [List.mem_filter]
    rw [hmem]
    refine and_congr_right fun htouched => ?_
    rw [hpick p ((hmem p).mpr htouched), pathPick_isApply]
  · simp only [List.mem_flatMap, List.mem_filter]
    constructor
    · rintro ⟨p, hp, hmu⟩
      rw [hpick p hp, mem_pathPick] at hmu
      obtain ⟨h1, h2, rfl, h4⟩ := hmu
      refine ⟨⟨hp, ?_⟩, h4⟩
      rw [hpick _ hp, pathPick_isApply]
      exact ⟨h1, h2⟩
    · rintro ⟨⟨hp, hap⟩, hmu⟩
      rw [hpick _ hp, pathPick_isApply] at hap
      refine ⟨_, hp, ?_⟩
      rw [hpick _ hp, mem_pathPick]
      exact ⟨hap.1, hap.2, rfl, hmu⟩
  · exact (toList_sorted _).filter _

lemma cherryPickPlan_isOk (hb : WellKeyed base) (ht : WellKeyed target) (hs : WellKeyed source) :
    ∃ plan, cherryPickPlan P base target source = .ok plan := by
  have hdiff : ∀ d ∈ diff base source, ∃ r, versionPathFromTreeKey d.key = .ok r := by
    intro d hd
    cases hk : base.get? d.key with
    | some v => exact hb _ _ hk
    | none =>
      have hne := (diff_spec hd).1
      rw [hk] at hne
      obtain ⟨v, hv⟩ := Option.ne_none_iff_exists'.mp hne.symm
      exact hs _ _ hv
  rw [← P.diff_eq] at hdiff
  obtain ⟨touched, htouched⟩ := mapM_ok.mpr hdiff
  obtain ⟨bs, hbs⟩ := treePathStates_isOk (ofList (touched.map (·.1))) hb
  obtain ⟨ts, hts⟩ := treePathStates_isOk (ofList (touched.map (·.1))) ht
  obtain ⟨ss, hss⟩ := treePathStates_isOk (ofList (touched.map (·.1))) hs
  unfold cherryPickPlan
  simp only [bind_eq_ok]
  exact ⟨_, touched, htouched, bs, hbs, ts, hts, ss, hss, rfl⟩

/-! ## The operations -/

/-- The parent that a delta is taken against. -/
def mainlineParent (source : VersionCommit Id) (mainline : Option Nat) :
    Except Error (Option Id) :=
  let what := "version cherry-pick mainline"
  match source.parents, mainline with
  | [], none => .ok none
  | [], some _ => .error (.invalid what "root commits do not accept a mainline parent")
  | [parent], none => .ok (some parent)
  | [_], some _ => .error (.invalid what "non-merge commits do not accept a mainline parent")
  | _, none => .error (.invalid what "merge commits require a one-based mainline parent")
  | parents, some 0 => .error (.invalid what s!"must be between 1 and {parents.length}")
  | parents, some (index + 1) =>
    match parents[index]? with
    | none => .error (.invalid what s!"must be between 1 and {parents.length}")
    | some parent => .ok (some parent)

/-- `cherry_pick_base` -/
def Store.cherryPickBase (s : Store Id) (source : VersionCommit Id) (mainline : Option Nat) :
    Except Error (Option (VersionRef Id)) := do
  match ← mainlineParent source mainline with
  | none => return none
  | some parent => do
      let commit ← s.getCommit parent
      return some commit.ref

end

section

variable {Id : Type} [ObjectId Id] {env : Env Id}

/-- Load the three trees and plan. -/
def pickPlan (P : Prolly env) (s : Store Id) (parent head : Option (VersionRef Id))
    (source : VersionCommit Id) : Except Error (CherryPickPlan Id) := do
  let base ← P.contents s parent
  let targetTree ← P.contents s head
  let sourceTree ← P.load s.nodes.get? source.tree
  cherryPickPlan P base targetTree sourceTree

structure VersionCherryPickPreview (Id : Type) where
  source : Id
  target : String
  targetHead : Option Id
  parent : Option Id
  mainline : Option Nat
  paths : List String
  conflicts : List String
  alreadyApplied : Bool

/-- `preview_cherry_pick` -/
def previewCherryPick (P : Prolly env) (s : Store Id) (reference target : String)
    (mainline : Option Nat) : Except Error (VersionCherryPickPreview Id) := do
  validateVersionBranchName target
  let source ← s.resolveCommit reference
  let head ← s.targetBranch target
  let parent ← s.cherryPickBase source mainline
  let plan ← pickPlan P s parent head source
  return ⟨source.id, target, head.map (·.commitId), parent.map (·.commitId), mainline,
    plan.sourcePaths, plan.conflicts, plan.alreadyApplied⟩

structure VersionCherryPickInfo (Id : Type) where
  source : Id
  target : String
  previous : Option Id
  commit : Id
  parent : Option Id
  mainline : Option Nat
  paths : List String
  applied : Bool
  replayed : Bool
  alreadyApplied : Bool

structure VersionCherryPickOperation where
  source : String
  target : String
  expectedTarget : Option String
  mainline : Option Nat
  provenance : Provenance
  idempotencyKey : Option String

/-- The head must be the one a preview has shown. -/
def requireTarget (target : String) (head : Option (VersionRef Id)) :
    Option String → Except Error Unit
  | none => .ok ()
  | some expected => refuseIf (head.map (fun ref => hex ref.commitId) ≠ some expected)
      (.invalid "version branch operation" s!"branch {target} moved since preview")

def pickConflict (source : VersionCommit Id) (target path : String) : Error :=
  .versioning s!"cherry-pick conflict applying {hex source.id} to {target} at {path}"

/-- The commit of a cherry-pick. -/
def pickCommit (env : Env Id) (now : Nat) (op : VersionCherryPickOperation)
    (source : VersionCommit Id) (head : Option (VersionRef Id)) (tree : Root Id)
    (paths : List String) : VersionCommit Id :=
  .ofBody env
    { parents := (head.map (·.commitId)).toList
      tree := tree
      createdAt := now
      message :=
        s!"Cherry-pick {String.ofList ((hex source.id).toList.take 12)} onto {op.target}: " ++
          source.message
      paths := paths
      provenance := op.provenance.1 }

/-- `cherry_pick_inner` -/
def cherryPickInner (P : Prolly env) (cfg : Settings Id) (now : Nat)
    (op : VersionCherryPickOperation) (s : Store Id) :
    Except Error (VersionCherryPickInfo Id) × Store Id :=
  attempt s (validateVersionBranchName op.target) fun _ =>
  attempt s (s.resolveCommit op.source) fun source =>
  attempt s (s.cherryPickBase source op.mainline) fun parent =>
  attempt s (idempotencyIntent cfg "version cherry-pick idempotency key" op.idempotencyKey
    (.cherryPick source.id op.target op.mainline op.provenance.1.author op.provenance.1.committer))
    fun intent =>
  attempt s (s.targetBranch op.target) fun head =>
  let info := fun (commit : VersionCommit Id) (replayed : Bool) =>
    (⟨source.id, op.target, commit.parents.head?, commit.id, parent.map (·.commitId), op.mainline,
      commit.paths, true, replayed, false⟩ : VersionCherryPickInfo Id)
  attempt s (s.replay intent) fun
  | some commit => (.ok (info commit true), s)
  | none =>
    attempt s (requireTarget op.target head op.expectedTarget) fun _ =>
    attempt s (pickPlan P s parent head source) fun plan =>
    match plan.conflicts with
    | path :: _ => (.error (pickConflict source op.target path), s)
    | [] =>
      if plan.mutations.isEmpty then
        match head with
        | none => (.error (.versioning "empty target cannot already contain a cherry-pick"), s)
        | some head => (.ok ⟨source.id, op.target, some head.commitId, head.commitId,
            parent.map (·.commitId), op.mainline, [], false, false, plan.alreadyApplied⟩, s)
      else
        attempt s (P.contents s head) fun targetTree =>
        let tree := P.batch targetTree plan.mutations
        let s₁ := s.putNodes env (P.nodes tree)
        match publish cfg now
          { branch := op.target
            expected := head.map (·.commitId)
            requiredRef := none
            commit := pickCommit env now op source head (P.root tree) plan.appliedPaths
            idempotency := intent
            reflogAction := .cherryPick } s₁ with
        | (.error e, s₂) => (.error e, s₂)
        | (.ok result, s₂) => (.ok (info result.commit result.replayed), s₂)

end

end SlateFs.Version
