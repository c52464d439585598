import SlateFs.Version.Digest
import SlateFs.Version.Flat

/-!
# Three-way merges

A merge compares two trees with the tree of a common ancestor. The planner works key
by key (`three_way_merge_plan`): a key that both sides changed to different values
makes its whole path a conflict, and every other change of the source is carried over.
A conflict refuses the merge, or keeps the complete path of one side.

What a merge is for is stated about whole paths: a path that one side changed is as
that side left it, and a path that both changed differently is a conflict. The
planner sees a conflict only where the two changes meet on a key. A file whose first
chunk one side rewrote and whose second chunk the other side rewrote, with the same
metadata, is put together from both.
-/

namespace SlateFs.Version

open OrdMap Mutation

variable {Id : Type} [ObjectId Id] {env : Env Id}

inductive VersionMergeConflictStrategy where
  | fail | ours | theirs
  deriving DecidableEq, Repr

def VersionMergeConflictStrategy.asStr : VersionMergeConflictStrategy → String
  | fail => "fail"
  | ours => "ours"
  | theirs => "theirs"

/-! ## The planner -/

/-- The bytes of a key. -/
def keyBytes (key : TreeKey) : Bytes :=
  match ofLex key with
  | .inl chunk =>
    let index := (ofLex chunk).2
    "c/".toUTF8.toList ++ (ofLex chunk).1.toUTF8.toList ++
      0 :: [index / 2 ^ 24, index / 2 ^ 16, index / 2 ^ 8, index].map (UInt8.ofNat ·)
  | .inr path => "m/".toUTF8.toList ++ path.toUTF8.toList

/-- `hex::encode` of bytes -/
def hexEncode (bytes : Bytes) : String :=
  String.ofList (bytes.flatMap fun b => [(b.toNat / 16).digitChar, (b.toNat % 16).digitChar])

/-- The path that a key belongs to; a key without one stands for itself. -/
def logicalPath (key : TreeKey) : String :=
  match versionPathFromTreeKey key with
  | .ok (path, _) => path
  | .error _ => hexEncode (keyBytes key)

structure ThreeWayMergePlan (Id : Type) where
  mutations : List (Mutation TreeKey (TreeValue Id))
  conflicts : List String

/-- The changes of one side, by key. -/
def changesBy (P : Prolly env) (base side : Contents Id) : OrdMap TreeKey (Option (TreeValue Id)) :=
  insertAll ∅ ((P.diff base side).map fun d => (d.key, d.result))

/-- The paths on some key of which the sides disagree. -/
def conflictPaths (P : Prolly env) (base left right : Contents Id) : PathSet :=
  .ofList (((P.diff base right).filter fun d =>
    match (changesBy P base left).get? d.key with
    | some leftValue => leftValue ≠ d.result
    | none => false).map fun d => logicalPath d.key)

/-- `three_way_merge_plan` -/
def threeWayMergePlan (P : Prolly env) (base left right : Contents Id) :
    ThreeWayMergePlan Id where
  mutations := ((P.diff base right).filter fun d =>
    ((changesBy P base left).get? d.key).isNone &&
      ((conflictPaths P base left right).get? (logicalPath d.key)).isNone).map
    fun d => .of d.key d.result
  conflicts := (conflictPaths P base left right).toList

/-- `resolve_three_way_merge` -/
def resolveThreeWayMerge (P : Prolly env) (source target : String)
    (base left right : Contents Id) (strategy : VersionMergeConflictStrategy) :
    Except Error (Contents Id) :=
  let plan := threeWayMergePlan P base left right
  match strategy, plan.conflicts with
  | .fail, path :: _ =>
    .error (.versioning s!"merge conflict between {source} and {target} at {path}")
  | .theirs, _ :: _ =>
    .ok (P.batch left (plan.mutations ++ ((P.diff left right).filter fun d =>
      logicalPath d.key ∈ plan.conflicts).map fun d => .of d.key d.result))
  | _, _ => .ok (P.batch left plan.mutations)

/-! ## What a merge is for -/

/-- Two trees hold the same complete state of a path. -/
def SameAt (p : String) (m n : Contents Id) : Prop :=
  ∀ k, logicalPath k = p → m.get? k = n.get? k

/-- Both sides changed a path, and not to the same state. -/
structure Clash (base target source : Contents Id) (p : String) : Prop where
  target_changed : ¬ SameAt p base target
  source_changed : ¬ SameAt p base source
  differ : ¬ SameAt p target source

/-- **A path-atomic merge.** -/
structure PathAtomic (base target source : Contents Id) (strategy : VersionMergeConflictStrategy)
    (conflicts : List String) (result : Except Error (Contents Id)) : Prop where
  conflict : ∀ p, p ∈ conflicts ↔ Clash base target source p
  refused : strategy = .fail → (∃ p, Clash base target source p) → ∃ e, result = .error e
  merged : ¬ (strategy = .fail ∧ ∃ p, Clash base target source p) → ∃ m, result = .ok m ∧ ∀ p,
    (SameAt p base source → SameAt p m target) ∧
    (SameAt p base target → SameAt p m source) ∧
    (SameAt p target source → SameAt p m target) ∧
    (Clash base target source p → strategy = .ours → SameAt p m target) ∧
    (Clash base target source p → strategy = .theirs → SameAt p m source)

/-- The two changes meet on a key of the path: both sides changed it, to different values. -/
def Meet (base target source : Contents Id) (p : String) : Prop :=
  ∃ k, logicalPath k = p ∧ base.get? k ≠ target.get? k ∧ base.get? k ≠ source.get? k ∧
    target.get? k ≠ source.get? k

/-! ## What the planner does -/

section

variable {P : Prolly env} {base left right : Contents Id}

lemma get?_changesBy (k : TreeKey) : (changesBy P base left).get? k =
    if base.get? k ≠ left.get? k then some (left.get? k) else none := by
  have hkeys : ((diff base left).map fun d => (d.key, d.result)).map Prod.fst =
      (diff base left).map Diff.key := by
    rw [List.map_map]
    rfl
  rw [changesBy, P.diff_eq]
  split
  · rename_i h
    obtain ⟨d, hd, rfl⟩ := exists_diff.mpr h
    refine get?_insertAll_of_mem ∅ (hkeys ▸ diff_sorted.nodup) ?_
    rw [← (diff_spec hd).2]
    exact List.mem_map.mpr ⟨d, hd, rfl⟩
  · rename_i h
    rw [get?_insertAll_of_not_mem ∅, get?_empty]
    rw [hkeys, List.mem_map]
    exact fun hk => h (exists_diff.mp hk)

variable {p : String}

/-- **The planner reports the paths on which the two changes meet.** -/
theorem mem_conflicts :
    p ∈ (threeWayMergePlan P base left right).conflicts ↔ Meet base left right p := by
  show p ∈ (conflictPaths P base left right).toList ↔ _
  unfold conflictPaths Meet
  rw [P.diff_eq, PathSet.mem_ofList, List.mem_map]
  constructor
  · rintro ⟨d, hd, rfl⟩
    obtain ⟨hd, hne⟩ := List.mem_filter.mp hd
    rw [get?_changesBy] at hne
    split at hne
    · rename_i leftValue hl
      split at hl
      · rename_i hleft
        cases hl
        rw [(diff_spec hd).2] at hne
        exact ⟨d.key, rfl, hleft, (diff_spec hd).1, by simpa using hne⟩
      · cases hl
    · cases hne
  · rintro ⟨k, rfl, hleft, hright, hne⟩
    obtain ⟨d, hd, rfl⟩ := exists_diff.mpr hright
    refine ⟨d, List.mem_filter.mpr ⟨hd, ?_⟩, rfl⟩
    rw [get?_changesBy, if_pos hleft, (diff_spec hd).2]
    simpa using hne

lemma conflictPaths_isNone :
    ((conflictPaths P base left right).get? p).isNone = true ↔ ¬ Meet base left right p := by
  rw [← mem_conflicts, show (threeWayMergePlan P base left right).conflicts =
    (conflictPaths P base left right).toList from rfl, PathSet.mem_toList]
  cases (conflictPaths P base left right).get? p <;> simp

/-- A key that the target left alone takes the source's value, unless its path is a conflict. -/
lemma get?_plan (k : TreeKey) [Decidable (Meet base left right (logicalPath k))] :
    (left.batch (threeWayMergePlan P base left right).mutations).get? k =
      if ¬ Meet base left right (logicalPath k) ∧ base.get? k = left.get? k then right.get? k
      else left.get? k := by
  rw [threeWayMergePlan, P.diff_eq]
  refine (get?_batch_diff left (fun k => ((changesBy P base left).get? k).isNone &&
    ((conflictPaths P base left right).get? (logicalPath k)).isNone) k).trans ?_
  simp only [Bool.and_eq_true, conflictPaths_isNone, get?_changesBy]
  by_cases hl : base.get? k = left.get? k
  · by_cases hr : left.get? k = right.get? k <;> simp [hl, hr]
  · simp [hl]

/-- On the paths that are conflicts the source's state replaces the target's. -/
lemma get?_theirs (k : TreeKey) [Decidable (Meet base left right (logicalPath k))] :
    (left.batch ((threeWayMergePlan P base left right).mutations ++
      ((diff left right).filter fun d => logicalPath d.key ∈
        (threeWayMergePlan P base left right).conflicts).map fun d => .of d.key d.result)).get? k =
      if Meet base left right (logicalPath k) ∨ base.get? k = left.get? k then right.get? k
      else left.get? k := by
  rw [show ∀ ms ms' : List (Mutation TreeKey (TreeValue Id)),
    left.batch (ms ++ ms') = (left.batch ms).batch ms' from fun ms ms' => List.foldl_append ..]
  rw [get?_batch_diff _ (fun k => logicalPath k ∈ (threeWayMergePlan P base left right).conflicts),
    get?_plan]
  simp only [decide_eq_true_eq, mem_conflicts]
  by_cases hm : Meet base left right (logicalPath k)
  · by_cases hr : left.get? k = right.get? k <;> simp [hm, hr]
  · simp [hm]

/-- **What a merge leaves under a key.** -/
theorem resolve_eq (source target : String) {strategy : VersionMergeConflictStrategy}
    (h : ¬ (strategy = .fail ∧ ∃ p, Meet base left right p)) :
    ∃ m, resolveThreeWayMerge P source target base left right strategy = .ok m ∧ ∀ k,
      (Meet base left right (logicalPath k) → strategy = .theirs → m.get? k = right.get? k) ∧
      (Meet base left right (logicalPath k) → strategy ≠ .theirs → m.get? k = left.get? k) ∧
      (¬ Meet base left right (logicalPath k) → base.get? k = left.get? k →
        m.get? k = right.get? k) ∧
      (¬ Meet base left right (logicalPath k) → base.get? k ≠ left.get? k →
        m.get? k = left.get? k) := by
  classical
  unfold resolveThreeWayMerge
  simp only
  split
  · rename_i path rest hc
    exact absurd ⟨rfl, path, mem_conflicts.mp (hc ▸ List.mem_cons_self ..)⟩ h
  · refine ⟨_, rfl, fun k => ?_⟩
    rw [P.batch_eq, P.diff_eq, get?_theirs]
    refine ⟨fun hm _ => by simp [hm], fun _ hn => absurd rfl hn, fun _ he => by simp [he],
      fun hm he => by simp [hm, he]⟩
  · rename_i hfail htheirs
    refine ⟨_, rfl, fun k => ?_⟩
    rw [P.batch_eq, get?_plan]
    refine ⟨fun hm hs => ?_, fun hm _ => by simp [hm], fun hm he => by simp [hm, he],
      fun hm he => by simp [hm, he]⟩
    -- with a conflict the strategy `theirs` takes the branch before
    have := (mem_conflicts (P := P)).mpr hm
    cases hc : (threeWayMergePlan P base left right).conflicts with
    | nil =>
      rw [hc] at this
      cases this
    | cons path rest => exact absurd hc (htheirs path rest hs)

omit [ObjectId Id] in
lemma Meet.clash (h : Meet base left right p) : Clash base left right p := by
  obtain ⟨k, hk, hl, hr, hne⟩ := h
  exact ⟨fun h => hl (h k hk), fun h => hr (h k hk), fun h => hne (h k hk)⟩

lemma resolve_refused {source target : String} (h : Meet base left right p) :
    ∃ e, resolveThreeWayMerge P source target base left right .fail = .error e := by
  unfold resolveThreeWayMerge
  have := (mem_conflicts (P := P)).mpr h
  cases hc : (threeWayMergePlan P base left right).conflicts with
  | nil =>
    rw [hc] at this
    cases this
  | cons path rest =>
    simp only [hc]
    exact ⟨_, rfl⟩

end

/-- **A merge is path-atomic just when the changes of both sides meet wherever they clash.** -/
theorem merge_pathAtomic_iff (P : Prolly env) (base target source : Contents Id)
    (sourceName targetName : String) (strategy : VersionMergeConflictStrategy) :
    PathAtomic base target source strategy (threeWayMergePlan P base target source).conflicts
        (resolveThreeWayMerge P sourceName targetName base target source strategy) ↔
      ∀ p, Clash base target source p → Meet base target source p := by
  constructor
  · intro h p hp
    exact mem_conflicts.mp ((h.conflict p).mpr hp)
  intro h
  have hiff : ∀ p, Clash base target source p ↔ Meet base target source p :=
    fun p => ⟨h p, Meet.clash⟩
  refine ⟨fun p => mem_conflicts.trans (hiff p).symm, ?_, ?_⟩
  · rintro rfl ⟨p, hp⟩
    exact resolve_refused ((hiff p).mp hp)
  intro hok
  obtain ⟨m, hm, hkey⟩ := resolve_eq sourceName targetName
    (fun hfail => hok ⟨hfail.1, hfail.2.imp fun p => (hiff p).mpr⟩)
  refine ⟨m, hm, fun p => ⟨?_, ?_, ?_, ?_, ?_⟩⟩
  · -- the source left the path alone
    intro hs k hk
    have hn : ¬ Meet base target source (logicalPath k) :=
      fun hm => hm.clash.source_changed (hk ▸ hs)
    by_cases hl : base.get? k = target.get? k
    · rw [(hkey k).2.2.1 hn hl, ← hs k hk, hl]
    · exact (hkey k).2.2.2 hn hl
  · intro ht k hk
    have hn : ¬ Meet base target source (logicalPath k) :=
      fun hm => hm.clash.target_changed (hk ▸ ht)
    exact (hkey k).2.2.1 hn (ht k hk)
  · intro hst k hk
    have hn : ¬ Meet base target source (logicalPath k) :=
      fun hm => hm.clash.differ (hk ▸ hst)
    by_cases hl : base.get? k = target.get? k
    · rw [(hkey k).2.2.1 hn hl, hst k hk]
    · exact (hkey k).2.2.2 hn hl
  · rintro hp rfl k hk
    exact (hkey k).2.1 (hk ▸ (hiff p).mp hp) (by decide)
  · rintro hp rfl k hk
    exact (hkey k).1 (hk ▸ (hiff p).mp hp) rfl

/-! ## Merges the other way round -/

/-- The strategy that prefers the same side when the sides are swapped. -/
def VersionMergeConflictStrategy.mirror :
    VersionMergeConflictStrategy → VersionMergeConflictStrategy
  | fail => fail
  | ours => theirs
  | theirs => ours

omit [ObjectId Id] in
lemma Meet.symm {base left right : Contents Id} {p : String} (h : Meet base left right p) :
    Meet base right left p := by
  obtain ⟨k, hk, hl, hr, hne⟩ := h
  exact ⟨k, hk, hr, hl, hne.symm⟩

/-- **It does not matter which side is merged into which.** Both ways report the same conflicts;
with the strategy turned round as well they are refused together or give the same tree. -/
theorem merge_mirrored (P : Prolly env) (base target source : Contents Id)
    (sourceName targetName : String) (strategy : VersionMergeConflictStrategy) :
    (∀ p, p ∈ (threeWayMergePlan P base target source).conflicts ↔
      p ∈ (threeWayMergePlan P base source target).conflicts) ∧
    (resolveThreeWayMerge P sourceName targetName base target source strategy).toOption =
      (resolveThreeWayMerge P targetName sourceName base source target
        strategy.mirror).toOption := by
  refine ⟨fun p => mem_conflicts.trans (Iff.trans ⟨.symm, .symm⟩ mem_conflicts.symm), ?_⟩
  by_cases hfail : strategy = .fail ∧ ∃ p, Meet base target source p
  · obtain ⟨rfl, p, hp⟩ := hfail
    have hrefused : ∀ {s t l r}, Meet base l r p →
        (resolveThreeWayMerge P s t base l r .fail).toOption = none := by
      intro s t l r h
      obtain ⟨e, he⟩ := resolve_refused h
      rw [he]
      rfl
    exact (hrefused hp).trans (hrefused hp.symm).symm
  have hfail' : ¬ (strategy.mirror = .fail ∧ ∃ p, Meet base source target p) := by
    rintro ⟨hs, p, hp⟩
    refine hfail ⟨?_, p, hp.symm⟩
    cases strategy <;> first | rfl | cases hs
  obtain ⟨m, hm, hkey⟩ := resolve_eq sourceName targetName hfail
  obtain ⟨n, hn, hkey'⟩ := resolve_eq targetName sourceName hfail'
  rw [hm, hn]
  refine congrArg some (OrdMap.ext fun k => ?_)
  by_cases hmeet : Meet base target source (logicalPath k)
  · cases strategy with
    | fail => exact absurd ⟨rfl, _, hmeet⟩ hfail
    | ours => rw [(hkey k).2.1 hmeet (by decide), (hkey' k).1 hmeet.symm rfl]
    | theirs => rw [(hkey k).1 hmeet rfl, (hkey' k).2.1 hmeet.symm (by decide)]
  · have hmeet' : ¬ Meet base source target (logicalPath k) := fun h => hmeet h.symm
    by_cases ht : base.get? k = target.get? k <;> by_cases hs : base.get? k = source.get? k
    · rw [(hkey k).2.2.1 hmeet ht, (hkey' k).2.2.1 hmeet' hs, ← hs, ht]
    · rw [(hkey k).2.2.1 hmeet ht, (hkey' k).2.2.2 hmeet' hs]
    · rw [(hkey k).2.2.2 hmeet ht, (hkey' k).2.2.1 hmeet' hs]
    · -- both sides changed the key, and the same way
      rw [(hkey k).2.2.2 hmeet ht, (hkey' k).2.2.2 hmeet' hs]
      exact by_contra fun hne => hmeet ⟨k, rfl, ht, hs, hne⟩

/-! ## A file put together from both sides -/

/-- A file of two chunks. -/
def twoChunks (first second : Nat) : Contents Digest :=
  insertAll ∅ [(fileMetaKey "/f", .entry ⟨0o644, 0, 0, 2, ⟨0, 0⟩, ⟨0, 0⟩, .file 2⟩),
    (fileChunkKey "/f" 0, .chunk ⟨[first], 1⟩), (fileChunkKey "/f" 1, .chunk ⟨[second], 1⟩)]

/-- The target rewrites the first chunk and the source the second: no conflict is reported, and
the merged file is neither side's. -/
theorem merge_mixes_chunks : ¬ PathAtomic (twoChunks 0 0) (twoChunks 1 0) (twoChunks 0 1) .ours
    (threeWayMergePlan (.flat Digest.env) (twoChunks 0 0) (twoChunks 1 0) (twoChunks 0 1)).conflicts
    (resolveThreeWayMerge (.flat Digest.env) "topic" "main" (twoChunks 0 0) (twoChunks 1 0)
      (twoChunks 0 1) .ours) := by
  intro h
  have hpath : ∀ i < 2, logicalPath (fileChunkKey "/f" i) = "/f" := by decide +kernel
  have hclash : Clash (twoChunks 0 0) (twoChunks 1 0) (twoChunks 0 1) "/f" := by
    refine ⟨fun h => ?_, fun h => ?_, fun h => ?_⟩
    · exact absurd (h _ (hpath 0 (by decide))) (by decide +kernel)
    · exact absurd (h _ (hpath 1 (by decide))) (by decide +kernel)
    · exact absurd (h _ (hpath 0 (by decide))) (by decide +kernel)
  have hnone :
      (threeWayMergePlan (.flat Digest.env) (twoChunks 0 0) (twoChunks 1 0)
        (twoChunks 0 1)).conflicts = [] := by
    decide +kernel
  have := (h.conflict "/f").mpr hclash
  cases this

end SlateFs.Version
