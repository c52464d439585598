import SlateFs.Version.Unbounded

/-!
# Collecting in several runs

A collection that runs out of budget is repeated until one reports that it is complete.
Each run decides again what to retain, on a store that the runs before it have partly
swept, and the walk along a branch stops at the first commit that is gone.

The runs agree with one run of unlimited budget just when the history is *steady*:
every commit the limits keep is reached from a head through retained commits only, or
is named by a tag or a reflog entry. Without a limit on age every history is steady.
-/

namespace SlateFs.Version

open Worklist Objects

variable {Id : Type} [ObjectId Id]

namespace Objects

variable {s : Objects Id} {l : Limits}

/-- Kept on some branch, and reached there through retained commits only. -/
def FirmlyKept (s : Objects Id) (l : Limits) (id : Id) : Prop :=
  ∃ b head p body, s.branches.get? b = some head ∧
    s.LineVia (s.Retained l) head.commitId p id ∧ s.commits.get? id = some body ∧
    l.keeps p body.createdAt = true

/-- **A steady history**: what the limits keep does not hang on a commit they drop. -/
def Steady (s : Objects Id) (l : Limits) : Prop :=
  ∀ id, s.Kept l id → s.FirmlyKept l id ∨ s.Pinned id

lemma FirmlyKept.kept {id : Id} (h : s.FirmlyKept l id) : s.Kept l id := by
  obtain ⟨b, head, p, body, hb, hl, hc, hk⟩ := h
  exact ⟨b, head, p, body, hb, hl.mono (fun _ _ h => h) (fun _ _ _ => trivial), hc, hk⟩

/-- A line can be followed one step further. -/
lemma LineVia.snoc {P : Id → Prop} {a x y : Id} {p : Nat} {body : VersionCommitBody Id}
    (h : s.LineVia P a p x) (hx : P x) (hb : s.commits.get? x = some body)
    (hhead : body.parents.head? = some y) (hy : (s.commits.get? y).isSome) :
    s.LineVia P a (p + 1) y := by
  induction h with
  | here _ => exact .there hb hx hhead (.here hy)
  | there ha hp hh _ ih => exact .there ha hp hh (ih hx hb)

/-- Where the limits keep every earlier position, the line to a commit is retained. -/
lemma lineVia_retained {b : String} {head : VersionRef Id} (hb : s.branches.get? b = some head)
    {a id : Id} {p : Nat} (h : s.Line a p id) : ∀ {q : Nat}, s.Line head.commitId q a →
      (∀ i t, i < q + p → l.keeps i t = true) → s.LineVia (s.Retained l) a p id := by
  induction h with
  | here h => exact fun _ _ => .here h
  | @there a y id p body hbody _ hhead hrest ih =>
    intro q ha hkeep
    have hret : s.Retained l a :=
      Kept.retained ⟨b, head, q, body, hb, ha, hbody, hkeep q _ (by omega)⟩
    refine .there hbody hret hhead (ih (ha.snoc trivial hbody hhead hrest.start) ?_)
    exact fun i t hi => hkeep i t (by omega)

/-- Limits without an age keep a whole piece of each branch from its head on. -/
lemma keeps_of_lt {l : Limits} (hcut : l.cutoff = none) {p q t u : Nat} (h : l.keeps p t = true)
    (hq : q ≤ p) : l.keeps q u = true := by
  unfold Limits.keeps at h ⊢
  rw [hcut] at h ⊢
  cases hkeep : l.keepLast with
  | none => simp
  | some k =>
    rw [hkeep] at h
    simp only [Option.all_some, Option.all_none, Bool.and_true, Bool.or_eq_true,
      decide_eq_true_eq] at h ⊢
    omega

lemma firmlyKept_of_kept (hcut : l.cutoff = none) {id : Id} (h : s.Kept l id) :
    s.FirmlyKept l id := by
  obtain ⟨b, head, p, body, hb, hl, hc, hk⟩ := h
  refine ⟨b, head, p, body, hb, lineVia_retained hb hl (.here hl.start) ?_, hc, hk⟩
  exact fun i t hi => keeps_of_lt hcut hk (by omega)

/-- **Without a limit on age every history is steady.** -/
theorem steady_of_no_cutoff (hcut : l.cutoff = none) : s.Steady l :=
  fun _ h => .inl (firmlyKept_of_kept hcut h)

lemma cutoff_of_unbounded {l : Limits} (h : l.unbounded = true) : l.cutoff = none := by
  unfold Limits.unbounded at h
  rw [Bool.and_eq_true, Option.isNone_iff_eq_none, Option.isNone_iff_eq_none] at h
  exact h.2

end Objects

namespace Store

variable {s : Store Id} {l : Limits} {T : List (Candidate Id)}

section Swept

variable (hT : ∀ c ∈ T, s.Garbage l c)
include hT

variable {id : Id} {n : Nat}

/-- A line through retained commits survives the sweep. -/
lemma lineVia_stays {P : Id → Prop} (hP : ∀ x, P x → s.Retained l x) {a : Id} {p : Nat}
    (h : s.LineVia P a p id) (hid : s.Retained l id) : (s.removeAll T).LineVia P a p id := by
  induction h with
  | here h => exact .here (by rw [get?_commits_retained hT hid]; exact h)
  | there hb hp hhead _ ih =>
    exact .there (by rw [get?_commits_retained hT (hP _ hp)]; exact hb) hp hhead (ih hid)

lemma firmlyKept_stays (h : s.FirmlyKept l id) : (s.removeAll T).Kept l id := by
  have hret := h.kept.retained
  obtain ⟨b, head, p, body, hb, hl, hc, hk⟩ := h
  refine ⟨b, head, p, body, by rwa [branches_removeAll], ?_, ?_, hk⟩
  · exact (lineVia_stays hT (fun _ h => h) hl hret).mono (fun _ _ h => h) (fun _ _ _ => trivial)
  · rwa [get?_commits_retained hT hret]

/-- What a branch holds on to without limits, it still holds on to. -/
lemma held_stays (hu : l.unbounded = true) (h : s.Held l id) : (s.removeAll T).Held l id := by
  unfold Objects.Held at h ⊢
  rw [if_pos hu] at h ⊢
  induction h with
  | root hk =>
    exact .root (firmlyKept_stays hT (firmlyKept_of_kept (cutoff_of_unbounded hu) hk))
  | @step x y hx hy ih =>
    have hret : s.Retained l x := by
      refine ⟨isSome_of_parent hy, .inl ?_⟩
      unfold Objects.Held
      rwa [if_pos hu]
    refine .step ih ?_
    unfold parents follow at hy ⊢
    rwa [get?_commits_retained hT hret]

/-- **In a steady history a sweep does not change what is retained.** -/
theorem retained_stays (hs : s.Steady l) (h : s.Retained l id) : (s.removeAll T).Retained l id := by
  refine ⟨by rw [get?_commits_retained hT h]; exact h.1, ?_⟩
  rcases h.2 with hheld | hpin
  · by_cases hu : l.unbounded = true
    · exact .inl (held_stays hT hu hheld)
    unfold Objects.Held at hheld ⊢
    rw [if_neg hu] at hheld ⊢
    exact (hs id hheld).imp (firmlyKept_stays hT) pinned_removeAll.mpr
  · exact .inr (pinned_removeAll.mpr hpin)

lemma retained_iff (hs : s.Steady l) : (s.removeAll T).Retained l = s.Retained l :=
  funext fun _ => propext ⟨retained_sub, retained_stays hT hs⟩

lemma nodeOf_iff (hs : s.Steady l) :
    (s.removeAll T).NodeOf ((s.removeAll T).Retained l) = s.NodeOf (s.Retained l) := by
  funext n
  refine propext ⟨nodeOf_sub fun _ => retained_sub, fun h => ?_⟩
  induction h with
  | root hr =>
    obtain ⟨c, body, hc, hb, ht⟩ := hr
    exact .root ⟨c, body, retained_stays hT hs hc, by rwa [get?_commits_retained hT hc], ht⟩
  | @step x y hx hy ih =>
    refine .step ih ?_
    unfold children follow at hy ⊢
    rwa [get?_nodes_live hT hx]

lemma blobOf_iff (hs : s.Steady l) :
    (s.removeAll T).BlobOf ((s.removeAll T).Retained l) = s.BlobOf (s.Retained l) := by
  funext b
  unfold Objects.BlobOf
  rw [nodeOf_iff hT hs]
  refine propext (exists_congr fun n => exists_congr fun node => exists_congr fun r => ?_)
  refine and_congr_right fun hn => ?_
  rw [get?_nodes_live hT hn]

/-- **What is left to delete is what was not deleted.** -/
theorem garbage_removeAll (hs : s.Steady l) {c : Candidate Id} :
    (s.removeAll T).Garbage l c ↔ s.Garbage l c ∧ c ∉ T := by
  cases c with
  | attestation c k =>
    simp only [Garbage, retained_iff hT hs, get?_attestations_removeAll, ofLex_toLex]
    by_cases hc : .attestation c k ∈ T <;> simp [hc]
  | blob b =>
    simp only [Garbage, blobOf_iff hT hs, get?_blobs_removeAll]
    by_cases hc : .blob b ∈ T <;> simp [hc]
  | commit c =>
    simp only [Garbage, retained_iff hT hs, get?_commits_removeAll]
    by_cases hc : .commit c ∈ T <;> simp [hc]
  | idempotency k =>
    simp only [Garbage, retained_iff hT hs, get?_idempotency_removeAll]
    by_cases hc : .idempotency k ∈ T <;> simp [hc]
  | node n =>
    simp only [Garbage, nodeOf_iff hT hs, get?_nodes_removeAll]
    by_cases hc : .node n ∈ T <;> simp [hc]

lemma steady_removeAll (hs : s.Steady l) : (s.removeAll T).Steady l := by
  intro id hid
  have hkept := kept_sub hid
  rcases hs id hkept with ⟨b, head, p, body, hb, hl, hc, hk⟩ | hpin
  · refine .inl ⟨b, head, p, body, by rwa [branches_removeAll], ?_, ?_, hk⟩
    · rw [retained_iff hT hs]
      exact lineVia_stays hT (fun _ h => h) hl hkept.retained
    · rwa [get?_commits_retained hT hkept.retained]
  · exact .inr (pinned_removeAll.mpr hpin)

omit hT in
/-- The walk along a branch ends in the swept store too, where it did or at a deleted commit. -/
lemma lineage_removeAll : ∀ {o : Option Id} {chain : List (VersionCommit Id)}
    {stop : Option Id}, s.lineage n o = some (chain, stop) →
      ∃ chain' stop', (s.removeAll T).lineage n o = some (chain', stop') ∧
        ∀ q, stop' = some q → .commit q ∈ T ∨ stop = some q := by
  induction n with
  | zero =>
    intro o chain stop h
    cases o with
    | none => exact ⟨[], none, rfl, nofun⟩
    | some a => cases h
  | succ n ih =>
    intro o chain stop h
    cases o with
    | none => exact ⟨[], none, rfl, nofun⟩
    | some a =>
      rw [lineage] at h ⊢
      unfold tryGetCommit at h ⊢
      rw [get?_commits_removeAll]
      by_cases haT : .commit a ∈ T
      · rw [if_pos haT]
        exact ⟨[], some a, rfl, fun q hq => .inl (Option.some.inj hq ▸ haT)⟩
      rw [if_neg haT]
      cases hc : s.commits.get? a with
      | none =>
        rw [hc] at h
        cases h
        exact ⟨[], some a, rfl, fun q hq => .inr hq⟩
      | some body =>
        simp only [hc, Option.map_some] at h ⊢
        split at h
        · cases h
        rename_i ch st hch
        cases h
        obtain ⟨ch', st', hch', hst⟩ := ih hch
        rw [hch']
        exact ⟨_, _, rfl, hst⟩

/-- A branch that breaks off where it may still does. -/
lemma branchOk_removeAll {b : String} {head : VersionRef Id} (hb : s.branches.get? b = some head)
    (h : s.BranchOk n (b, head)) :
    (s.removeAll T).BranchOk n (b, head) := by
  obtain ⟨chain, stop, hch, hok⟩ := h
  obtain ⟨chain', stop', hch', hstop⟩ := lineage_removeAll hch
  refine ⟨chain', stop', hch', fun hmain => ?_⟩
  have hok := hok hmain
  cases stop' with
  | none => rfl
  | some q =>
    obtain ⟨hgone, -, hnil⟩ := lineage_stop hch'
    refine checkStop_ok.mpr ⟨fun hempty => ?_, ?_⟩
    · -- the head was there, so it is retained and still there
      cases Option.some.inj (hnil hempty)
      have hhead : (s.commits.get? head.commitId).isSome := by
        cases hc : s.commits.get? head.commitId with
        | some _ => rfl
        | none =>
          cases n with
          | zero => cases hch
          | succ n =>
            rw [lineage, tryGetCommit, hc] at hch
            cases hch
            exact absurd rfl (checkStop_ok.mp hok).1
      rw [get?_commits_retained hT (kept_head hb hhead).retained] at hgone
      rw [hgone] at hhead
      cases hhead
    · unfold isPrunedCommit
      rw [get?_pruned_removeAll]
      split
      · rfl
      rename_i hqT
      rw [(hstop q rfl).resolve_left hqT] at hok
      exact (checkStop_ok.mp hok).2

/-- **A swept store can be collected again.** -/
theorem collectable_removeAll (hs : s.Steady l) (hc : s.Collectable n l) :
    (s.removeAll T).Collectable n l := by
  refine ⟨⟨?_, ?_⟩, ?_⟩
  · intro b head hb
    rw [branches_removeAll] at hb
    exact branchOk_removeAll hT hb (hc.refs.branch b head hb)
  · intro id hid
    have hpin := pinned_removeAll.mp hid
    by_cases hp : (s.commits.get? id).isSome
    · right
      rw [get?_commits_retained hT ⟨hp, .inr hpin⟩]
      exact hp
    · left
      have hheld := (hc.refs.pinned id hpin).resolve_right hp
      by_cases hu : l.unbounded = true
      · exact held_stays hT hu hheld
      unfold Objects.Held at hheld
      rw [if_neg hu] at hheld
      exact absurd hheld.retained.1 hp
  · rw [nodeOf_iff hT hs]
    intro id hid
    rw [get?_nodes_live hT hid]
    exact hc.node id hid

end Swept

/-! ## Repeated runs -/

/-- Collections with one set of retention arguments and any budgets, until one is complete. -/
inductive Finishes (env : Env Id) (n now : Nat) (keepLast maxAgeSecs : Option Nat) :
    Store Id → Store Id → Prop
  | last {s s' : Store Id} {b : Option Nat} {r : VersionGcReport} :
      s.garbageCollect env n now keepLast maxAgeSecs false b = some (.ok (r, s')) →
      r.complete = true → Finishes env n now keepLast maxAgeSecs s s'
  | more {s s₁ s' : Store Id} {b : Option Nat} {r : VersionGcReport} :
      s.garbageCollect env n now keepLast maxAgeSecs false b = some (.ok (r, s₁)) →
      r.complete = false → Finishes env n now keepLast maxAgeSecs s₁ s' →
      Finishes env n now keepLast maxAgeSecs s s'

/-- A call within its budget range is a collection with that budget. -/
lemma collect_of_gc {env : Env Id} {n now : Nat} {keepLast maxAgeSecs b : Option Nat}
    {r : VersionGcReport} {s' : Store Id}
    (h : s.garbageCollect env n now keepLast maxAgeSecs false b = some (.ok (r, s'))) :
    s.collect env n ⟨keepLast, maxAgeSecs.map (now - ·)⟩ false (b.getD DEFAULT_GC_MAX_DELETIONS)
      = some (.ok (r, s')) := by
  unfold garbageCollect at h
  dsimp only at h
  split at h
  · cases h
  · exact h

variable {cs : List (Candidate Id)} {c : Candidate Id}

omit [ObjectId Id] in
/-- A run is complete when its budget covers the candidates. -/
lemma complete_iff {k n b : Nat} :
    (report k (cs.take b) (cs.length - b) n false).complete = true ↔ cs.length ≤ b := by
  unfold report
  simp only [decide_eq_true_eq]
  omega

/-- **In a steady history any sequence of budgets deletes all the garbage.** -/
theorem Finishes.eq {env : Env Id} {n now : Nat} {keepLast maxAgeSecs : Option Nat}
    {s s' : Store Id}
    (h : Finishes env n now keepLast maxAgeSecs s s') :
    ∀ {k : Nat} {cs : List (Candidate Id)},
      s.Steady ⟨keepLast, maxAgeSecs.map (now - ·)⟩ →
      s.mark env n ⟨keepLast, maxAgeSecs.map (now - ·)⟩ = some (.ok (k, cs)) →
      s' = s.removeAll cs := by
  induction h with
  | @last s s' b r hgc hcomp =>
    intro k cs hs hm
    obtain ⟨k', cs', hm', rfl, rfl⟩ := collect_eq_ok.mp (collect_of_gc hgc)
    rw [hm] at hm'
    cases hm'
    rw [List.take_of_length_le (complete_iff.mp hcomp)]
  | @more s s₁ s' b r hgc _ _ ih =>
    intro k cs hs hm
    obtain ⟨k', cs', hm', -, rfl⟩ := collect_eq_ok.mp (collect_of_gc hgc)
    rw [hm] at hm'
    cases hm'
    have hT : ∀ c ∈ cs.take (b.getD DEFAULT_GC_MAX_DELETIONS),
        s.Garbage ⟨keepLast, maxAgeSecs.map (now - ·)⟩ c :=
      fun c hc => (mem_mark hm c).mp (List.mem_of_mem_take hc)
    obtain ⟨⟨k₁, cs₁⟩, hm₁⟩ :=
      mark_ok_iff.mpr (collectable_removeAll hT hs (mark_ok_iff.mp ⟨_, hm⟩))
    rw [ih (steady_removeAll hT hs) hm₁]
    refine List.foldl_append.symm.trans (removeAll_congr fun c => ?_)
    rw [List.mem_append, mem_mark hm₁, garbage_removeAll hT hs, ← mem_mark hm]
    constructor
    · rintro (hc | hc)
      · exact List.mem_of_mem_take hc
      · exact hc.1
    · intro hc
      by_cases hct : c ∈ cs.take (b.getD DEFAULT_GC_MAX_DELETIONS)
      · exact .inl hct
      · exact .inr ⟨hc, hct⟩

/-- The store holds a record. -/
def Has (s : Store Id) : Candidate Id → Prop
  | .attestation c k => (s.attestations.get? (toLex (c, k))).isSome
  | .blob b => (s.blobs.get? b).isSome
  | .commit c => (s.commits.get? c).isSome
  | .idempotency k => (s.idempotency.get? k).isSome
  | .node n => (s.nodes.get? n).isSome

lemma not_has_removeAll (h : c ∈ T) : ¬ (s.removeAll T).Has c := by
  cases c <;> simp [Has, h]

lemma Garbage.has (h : s.Garbage l c) : s.Has c := by
  cases c with
  | idempotency k =>
    obtain ⟨r, hr, -⟩ := h
    show (s.idempotency.get? k).isSome
    rw [hr]
    rfl
  | _ => exact h.1

/-- Deleting garbage changes the store. -/
lemma removeAll_ne (h : s.Garbage l c) : s.removeAll [c] ≠ s := by
  intro he
  have hnot := not_has_removeAll (s := s) (List.mem_singleton.mpr (rfl : c = c))
  rw [he] at hnot
  exact hnot h.has

lemma retained_of_not_garbage {id : Id} (hp : (s.commits.get? id).isSome)
    (h : ¬ s.Garbage l (.commit id)) : s.Retained l id := by
  by_contra hr
  exact h ⟨hp, hr⟩

/-- A history that has no garbage once its garbage is gone is steady. -/
lemma steady_of_no_garbage (hcs : ∀ c, c ∈ cs ↔ s.Garbage l c)
    (h : ∀ c, ¬ (s.removeAll cs).Garbage l c) : s.Steady l := by
  by_cases hu : l.unbounded = true
  · exact steady_of_no_cutoff (cutoff_of_unbounded hu)
  intro id hid
  have hT : ∀ c ∈ cs, s.Garbage l c := fun c hc => (hcs c).mp hc
  have hpres : ((s.removeAll cs).commits.get? id).isSome := by
    rw [get?_commits_retained hT hid.retained]
    exact hid.retained.1
  rcases (retained_of_not_garbage hpres (h _)).2 with hheld | hpin
  · unfold Objects.Held at hheld
    rw [if_neg hu] at hheld
    obtain ⟨b, head, p, body, hb, hl, hc, hk⟩ := hheld
    rw [branches_removeAll] at hb
    refine .inl ⟨b, head, p, body, hb, ?_, (commits_sub hc).2, hk⟩
    -- what the walk passes through is still there, so it was not garbage
    refine hl.mono (fun _ _ h => (commits_sub h).2) fun x hx _ => ?_
    obtain ⟨bx, hbx⟩ := Option.isSome_iff_exists.mp hx
    obtain ⟨hxT, hbx⟩ := commits_sub hbx
    exact retained_of_not_garbage (by rw [hbx]; rfl) fun hg => hxT ((hcs _).mpr hg)
  · exact .inr (pinned_removeAll.mp hpin)

/-- **Budgets do not matter**: any runs that end with a complete one leave the store that one
complete run leaves, whatever its budget, and another run deletes nothing. -/
structure Repeatable (env : Env Id) (n now : Nat) (keepLast maxAgeSecs : Option Nat)
    (s : Store Id) : Prop where
  same : ∀ b r sAll s', s.collect env n ⟨keepLast, maxAgeSecs.map (now - ·)⟩ false b
      = some (.ok (r, sAll)) → r.complete = true →
    Finishes env n now keepLast maxAgeSecs s s' → s' = sAll
  nothing : ∀ b r sAll, s.collect env n ⟨keepLast, maxAgeSecs.map (now - ·)⟩ false b
      = some (.ok (r, sAll)) → r.complete = true →
    ∀ b', 0 < b' → b' ≤ MAX_GC_MAX_DELETIONS →
      ∃ r', sAll.garbageCollect env n now keepLast maxAgeSecs false (some b') =
        some (.ok (r', sAll))

/-- **Repeated collections agree with one unlimited collection just on steady histories.** -/
theorem gc_repeatable_iff (env : Env Id) (s : Store Id) (n now : Nat)
    (keepLast maxAgeSecs : Option Nat) : Repeatable env n now keepLast maxAgeSecs s ↔
      (s.Collectable n ⟨keepLast, maxAgeSecs.map (now - ·)⟩ →
        s.Steady ⟨keepLast, maxAgeSecs.map (now - ·)⟩) := by
  constructor
  · intro h hc
    obtain ⟨⟨k, cs⟩, hm⟩ := mark_ok_iff.mpr hc
    have hone := collect_eq_ok (b := cs.length).mpr ⟨k, cs, hm, rfl, rfl⟩
    obtain ⟨r', hagain⟩ := h.nothing _ _ _ hone (complete_iff.mpr (Nat.le_refl _)) 1
      (by decide) (by decide)
    obtain ⟨k', cs', hm', -, heq⟩ := collect_eq_ok.mp (collect_of_gc hagain)
    rw [List.take_length] at hm' heq
    refine steady_of_no_garbage (mem_mark hm) fun c hg => ?_
    cases cs' with
    | nil => exact absurd ((mem_mark hm' c).mpr hg) List.not_mem_nil
    | cons d ds =>
      exact removeAll_ne ((mem_mark hm' d).mp (List.mem_cons_self ..)) heq.symm
  · intro h
    constructor
    · intro b r sAll s' hone hcomp hfin
      obtain ⟨k, cs, hm, rfl, rfl⟩ := collect_eq_ok.mp hone
      rw [List.take_of_length_le (complete_iff.mp hcomp)]
      exact hfin.eq (h (mark_ok_iff.mp ⟨_, hm⟩)) hm
    · intro b r sAll hone hcomp b' hpos hmax
      obtain ⟨k, cs, hm, rfl, rfl⟩ := collect_eq_ok.mp hone
      rw [List.take_of_length_le (complete_iff.mp hcomp)]
      have hs := h (mark_ok_iff.mp ⟨_, hm⟩)
      have hT : ∀ c ∈ cs, s.Garbage _ c := fun c hc => (mem_mark hm c).mp hc
      obtain ⟨⟨k', cs'⟩, hm'⟩ :=
        mark_ok_iff.mpr (collectable_removeAll hT hs (mark_ok_iff.mp ⟨_, hm⟩))
      have hnil : cs' = [] := by
        refine List.eq_nil_iff_forall_not_mem.mpr fun c hc => ?_
        have := (garbage_removeAll hT hs).mp ((mem_mark hm' c).mp hc)
        exact this.2 ((mem_mark hm c).mpr this.1)
      subst hnil
      have hagain := collect_eq_ok (b := b').mpr ⟨k', [], hm', rfl, rfl⟩
      rw [List.take_nil] at hagain
      refine ⟨_, Eq.trans ?_ hagain⟩
      exact if_neg (by simp only [Option.getD_some]; omega)

end Store

namespace Digest

/-- The middle commit carries an older time than the one before it. -/
def old : VersionCommitBody Digest := commitOf [idOf initial] 2 5

def afterOld : VersionCommitBody Digest := commitOf [idOf old] 3 30

def backdated : Store Digest :=
  storeOf [1, 2, 3] [initial, old, afterOld] [("main", afterOld)] [] []

/-- One collection with an age limit is complete and retains the first commit; the next, at the
same time and with the same arguments, deletes it. -/
theorem second_run_deletes :
    ∃ r s', backdated.garbageCollect env 4 40 none (some 30) false none = some (.ok (r, s')) ∧
      r.complete = true ∧ s'.commits.get? (idOf initial) = some initial ∧
      ∃ s'', collected (s'.garbageCollect env 4 40 none (some 30) false none) = some s'' ∧
        s''.commits.get? (idOf initial) = none := by
  obtain ⟨⟨r, s'⟩, h⟩ := exists_of_collected
    (r := backdated.garbageCollect env 4 40 none (some 30) false none) (by decide +kernel)
  have hcomp : (backdated.garbageCollect env 4 40 none (some 30) false none).map
      (fun e => e.toOption.map (fun p => p.1.complete)) = some (some true) := by
    decide +kernel
  have hkept : (collected (backdated.garbageCollect env 4 40 none (some 30) false none)).map
      (fun s => s.commits.get? (idOf initial)) = some (some initial) := by
    decide +kernel
  have hgone : (collected (backdated.garbageCollect env 4 40 none (some 30) false none)).map
      (fun s => (collected (s.garbageCollect env 4 40 none (some 30) false none)).map
        (fun s => s.commits.get? (idOf initial))) = some (some none) := by
    decide +kernel
  rw [h] at hcomp hkept hgone
  refine ⟨r, s', h, Option.some.inj (Option.some.inj hcomp), Option.some.inj hkept, ?_⟩
  exact Option.map_eq_some_iff.mp (Option.some.inj hgone)

end Digest

end SlateFs.Version
