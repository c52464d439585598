import SlateFs.Version.Keep

/-!
# Collecting without limits

Without limits a collection is meant to retain the whole graph of commits that a
branch, a tag or a reflog entry reaches. It closes over all parents before it looks at
tags and reflogs, so of those only the named commits are retained. A commit that only
a tag or a reflog entry reaches, through a parent, is *stranded*: it is garbage.
-/

namespace SlateFs.Version

open Worklist

variable {Id : Type} [ObjectId Id]

/-- No limits at all. -/
def Limits.none : Limits := ⟨Option.none, Option.none⟩

namespace Store

variable {s : Store Id} {l : Limits}

/-- The head of some branch. -/
def IsHead (s : Store Id) (id : Id) : Prop :=
  ∃ b head, s.branches.get? b = some head ∧ head.commitId = id

/-- **A stranded commit**: a tag or a reflog entry reaches it, but does not name it, and no
branch reaches it. -/
structure Stranded (s : Store Id) (id : Id) : Prop where
  present : (s.commits.get? id).isSome
  pinned : Reach s.parents s.Pinned id
  unnamed : ¬ s.Pinned id
  unbranched : ¬ Reach s.parents s.IsHead id

/-- The records of a commit: itself, and the nodes and blobs of its tree. -/
inductive Belongs (s : Store Id) (id : Id) : Candidate Id → Prop where
  | commit : (s.commits.get? id).isSome → Belongs s id (.commit id)
  | node {n : Id} : s.NodeOf (· = id) n → Belongs s id (.node n)
  | blob {b : Id} : s.BlobOf (· = id) b → Belongs s id (.blob b)

/-- A commit and its tree are as they were. -/
structure Untouched (s s' : Store Id) (id : Id) : Prop where
  commit : s'.commits.get? id = s.commits.get? id
  node : ∀ n, s.NodeOf (· = id) n → s'.nodes.get? n = s.nodes.get? n
  blob : ∀ b, s.BlobOf (· = id) b → s'.blobs.get? b = s.blobs.get? b

lemma isSome_of_parent {x y : Id} (h : y ∈ s.parents x) : (s.commits.get? x).isSome := by
  obtain ⟨body, hb, -⟩ := mem_follow.mp h
  rw [hb]
  rfl

variable {id : Id} {c : Candidate Id}

/-- Without limits, branches hold on to all that their heads reach. -/
lemma held_none_iff (hid : (s.commits.get? id).isSome) :
    s.Held Limits.none id ↔ Reach s.parents s.IsHead id := by
  constructor
  · intro h
    exact h.mem_of_closed (fun _ => reach_of_kept fun b head hb => ⟨b, head, hb, rfl⟩)
      (fun _ _ hy hz => .step hy hz)
  · intro h
    refine h.mem_of_closed (S := fun x => (s.commits.get? x).isSome →
      Reach s.parents (s.Kept Limits.none) x) ?_ ?_ hid
    · rintro y ⟨b, head, hb, rfl⟩ hy
      exact .root (Objects.kept_head hb hy)
    · intro y z hy hz _
      exact .step (hy (isSome_of_parent hz)) hz

lemma reachable_iff :
    s.Reachable id ↔ Reach s.parents s.IsHead id ∨ Reach s.parents s.Pinned id := by
  constructor
  · intro h
    refine h.mem_of_closed (S := fun x => Reach s.parents s.IsHead x ∨ Reach s.parents s.Pinned x)
      ?_ ?_
    · intro y hy
      exact (mem_roots.mp hy).imp .root .root
    · intro y z hy hz
      exact hy.imp (.step · hz) (.step · hz)
  · intro h
    rcases h with h | h
    · exact h.mono (fun y hy => mem_roots.mpr (.inl hy)) (fun _ _ hz => hz)
    · exact h.mono (fun y hy => mem_roots.mpr (.inr hy)) (fun _ _ hz => hz)

/-- **The stranded commits are those that are reachable but not retained.** -/
theorem stranded_iff : s.Stranded id ↔
    s.Reachable id ∧ (s.commits.get? id).isSome ∧ ¬ s.Retained Limits.none id := by
  unfold Objects.Retained
  constructor
  · intro h
    refine ⟨reachable_iff.mpr (.inr h.pinned), h.present, ?_⟩
    rintro ⟨-, hr⟩
    rw [held_none_iff h.present] at hr
    exact hr.elim h.unbranched h.unnamed
  · rintro ⟨hr, hp, hn⟩
    rw [held_none_iff hp] at hn
    have hub : ¬ Reach s.parents s.IsHead id := fun h => hn ⟨hp, .inl h⟩
    exact ⟨hp, (reachable_iff.mp hr).resolve_left hub, fun h => hn ⟨hp, .inr h⟩, hub⟩

lemma Belongs.present (h : s.Belongs id c) : (s.commits.get? id).isSome := by
  have hnode : ∀ {n}, s.NodeOf (· = id) n → (s.commits.get? id).isSome := by
    intro n hn
    refine hn.mem_of_closed (S := fun _ => (s.commits.get? id).isSome) ?_ (fun _ _ h _ => h)
    rintro r ⟨c, body, rfl, hb, -⟩
    rw [hb]
    rfl
  cases h with
  | commit h => exact h
  | node hn => exact hnode hn
  | blob hb =>
    obtain ⟨n, -, -, hn, -⟩ := hb
    exact hnode hn

/-- Nothing of a retained commit is garbage. -/
lemma not_garbage_of_retained (hr : s.Retained l id) (hc : s.Belongs id c) : ¬ s.Garbage l c := by
  intro hg
  cases hc with
  | commit _ => exact hg.2 hr
  | node hn => exact hg.2 (hn.mono fun _ h => h ▸ hr)
  | blob hb =>
    obtain ⟨n, node, r, hn, hget, hmem, hcid⟩ := hb
    exact hg.2 ⟨n, node, r, hn.mono fun _ h => h ▸ hr, hget, hmem, hcid⟩

/-- A commit is untouched when none of its records is deleted. -/
lemma untouched_iff {T : List (Candidate Id)} (hT : ∀ c ∈ T, s.Garbage l c) :
    Untouched s (s.removeAll T) id ↔ ∀ c, s.Belongs id c → c ∉ T := by
  constructor
  · intro h c hc hcT
    cases hc with
    | commit hp =>
      rw [← h.commit, get?_commits_removeAll, if_pos hcT] at hp
      cases hp
    | node hn =>
      have hp : (s.nodes.get? _).isSome := (hT _ hcT).1
      rw [← h.node _ hn, get?_nodes_removeAll, if_pos hcT] at hp
      cases hp
    | blob hb =>
      have hp : (s.blobs.get? _).isSome := (hT _ hcT).1
      rw [← h.blob _ hb, get?_blobs_removeAll, if_pos hcT] at hp
      cases hp
  · intro h
    refine ⟨?_, ?_, ?_⟩
    · rw [get?_commits_removeAll]
      cases hc : s.commits.get? id with
      | none => split <;> rfl
      | some body => rw [if_neg (h _ (.commit (by rw [hc]; rfl)))]
    · intro n hn
      rw [get?_nodes_removeAll, if_neg (h _ (.node hn))]
    · intro b hb
      rw [get?_blobs_removeAll, if_neg (h _ (.blob hb))]

/-- **A collection without limits leaves every reachable commit and its tree alone just when no
record of a stranded commit comes within its budget.** -/
theorem gc_none_keeps_iff (env : Env Id) (s s' : Store Id) (n now : Nat)
    (maxDeletions : Option Nat) (r : VersionGcReport)
    (h : s.garbageCollect env n now none none false maxDeletions = some (.ok (r, s'))) :
    (∀ id, s.Reachable id → Untouched s s' id) ↔
      ∀ id, s.Stranded id → ∀ c, s.Belongs id c →
        ¬ s.Doomed Limits.none (maxDeletions.getD DEFAULT_GC_MAX_DELETIONS) c := by
  unfold garbageCollect at h
  dsimp only at h
  split at h
  · cases h
  obtain ⟨k, cs, hm, -, rfl⟩ := collect_eq_ok.mp h
  have hmem := mem_taken (b := maxDeletions.getD DEFAULT_GC_MAX_DELETIONS) hm
  have hT : ∀ c ∈ cs.take (maxDeletions.getD DEFAULT_GC_MAX_DELETIONS),
      s.Garbage Limits.none c := fun c hc => ((hmem c).mp hc).1
  constructor
  · intro hall id hid c hc hd
    exact (untouched_iff hT).mp (hall id (stranded_iff.mp hid).1) c hc ((hmem c).mpr hd)
  · intro hall id hid
    refine (untouched_iff hT).mpr fun c hc hcT => ?_
    by_cases hret : s.Retained Limits.none id
    · exact not_garbage_of_retained hret hc (hT c hcT)
    · exact hall id (stranded_iff.mpr ⟨hid, hc.present, hret⟩) c hc ((hmem c).mp hcT)

end Store

namespace Digest

/-- `main` was reset to its first commit, and the third is tagged. -/
def resetAndTagged : Store Digest :=
  storeOf [1, 2, 3] [initial, middle, latest] [("main", initial)]
    [(toLex ("main", 4), ⟨some (idOf latest), some (idOf initial), .reset, 40⟩)]
    [("v1", ⟨idOf latest, 35⟩)]

/-- The commit between the two is reachable from the tag, and a collection without limits deletes
it. -/
theorem unbounded_gc_deletes_ancestor :
    resetAndTagged.Reachable (idOf middle) ∧
      resetAndTagged.commits.get? (idOf middle) = some middle ∧
      ∃ s', collected (resetAndTagged.garbageCollect env 4 50 none none false none) = some s' ∧
        s'.commits.get? (idOf middle) = none := by
  refine ⟨?_, by decide +kernel, Option.map_eq_some_iff.mp ?_⟩
  · have hroot : resetAndTagged.Reachable (idOf latest) := .root (by decide +kernel)
    exact .step hroot (by decide +kernel)
  · decide +kernel

/-- The last commit was left behind, and the tag is on a commit below `main`. -/
def taggedBelow : Store Digest :=
  storeOf [1, 2, 3] [initial, middle, latest] [("main", middle)] [] [("v1", ⟨idOf initial, 15⟩)]

/-- All that is reachable stays, and the commit that was left behind goes. -/
theorem taggedBelow_keeps_reachable :
    ∃ r s', taggedBelow.garbageCollect env 4 50 none none false none = some (.ok (r, s')) ∧
      s'.commits.get? (idOf latest) = none ∧
      ∀ id, taggedBelow.Reachable id → Store.Untouched taggedBelow s' id := by
  obtain ⟨⟨r, s'⟩, h⟩ := exists_of_collected
    (r := taggedBelow.garbageCollect env 4 50 none none false none) (by decide +kernel)
  have hgone : (collected (taggedBelow.garbageCollect env 4 50 none none false none)).all
      (fun s => (s.commits.get? (idOf latest)).isNone) = true := by decide +kernel
  rw [h] at hgone
  refine ⟨r, s', h, Option.isNone_iff_eq_none.mp hgone, ?_⟩
  refine (Store.gc_none_keeps_iff env taggedBelow s' 4 50 none r h).mpr fun id hid => ?_
  -- the tag reaches the commit that it names and no other
  have hinitial : id = idOf initial := by
    refine hid.pinned.mem_of_closed (S := (· = idOf initial)) (fun y hy => ?_)
      fun y z hy hz => ?_
    · rcases hy with ⟨t, v, hv, rfl⟩ | hy
      · have hv := OrdMap.mem_entries.mpr hv
        rw [show taggedBelow.tags.entries = [("v1", ⟨idOf initial, 15⟩)] from rfl] at hv
        cases List.mem_singleton.mp hv
        rfl
      · cases hy
    · subst hy
      rw [show taggedBelow.parents (idOf initial) = [] by decide +kernel] at hz
      cases hz
  subst hinitial
  exact absurd (.inl ⟨"v1", ⟨idOf initial, 15⟩, by decide +kernel, rfl⟩) hid.unnamed

end Digest

end SlateFs.Version
