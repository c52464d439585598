import SlateFs.Version.Mark
import Mathlib.Data.Set.Card

/-!
# What a sweep deletes

The sweep visits the store in key order and deletes garbage until the budget is used
up. So it deletes the garbage records that fewer than `budget` other garbage records
come before: the *doomed* ones. This describes the sweep by the state before it.
-/

namespace SlateFs.Version

open OrdMap Worklist Candidate

variable {Id : Type} [ObjectId Id]

/-- The key of a record: its family, then its id. -/
def Candidate.key : Candidate Id → Nat ×ₗ Id ×ₗ String
  | .attestation c k => toLex (0, toLex (c, k))
  | .blob id => toLex (1, toLex (id, ""))
  | .commit id => toLex (2, toLex (id, ""))
  | .idempotency keyHash => toLex (3, toLex (keyHash, ""))
  | .node id => toLex (4, toLex (id, ""))

/-- In a list in key order, an entry is among the first `b` just when fewer than `b` entries come
before it. -/
lemma mem_take_iff {α κ : Type} [LinearOrder κ] (key : α → κ) {xs : List α}
    (h : xs.Pairwise (fun a b => key a < key b)) (b : Nat) (x : α) :
    x ∈ xs.take b ↔ x ∈ xs ∧ xs.countP (fun y => key y < key x) < b := by
  induction xs generalizing b with
  | nil => simp
  | cons y ys ih =>
    rw [List.pairwise_cons] at h
    cases b with
    | zero => simp
    | succ b =>
      rw [List.take_succ_cons, List.mem_cons, List.mem_cons, ih h.2, List.countP_cons]
      by_cases hxy : x = y
      · subst hxy
        have hzero : ys.countP (fun y => key y < key x) = 0 := by
          refine List.countP_eq_zero.mpr ?_
          intro z hz
          simpa using (h.1 z hz).le
        simp [hzero]
      · simp only [hxy, false_or]
        refine and_congr_right fun hx => ?_
        have := h.1 x hx
        simp [this]

namespace Store

variable {s : Store Id} {l : Limits}

/-! ## Key order -/

lemma pairwise_part {κ α : Type} [LinearOrder κ] (m : OrdMap κ α) (p : κ × α → Bool)
    (f : κ × α → Candidate Id) (hf : ∀ a b : κ × α, a.1 < b.1 → (f a).key < (f b).key) :
    ((m.entries.filter p).map f).Pairwise (fun a b => a.key < b.key) := by
  rw [List.pairwise_map]
  exact (m.sorted.filter p).imp fun {a b} h => hf a b h

lemma key_lt_of_fst {i j : Nat} {x y : Id ×ₗ String} (h : i < j) :
    (toLex (i, x) : Nat ×ₗ Id ×ₗ String) < toLex (j, y) := Prod.Lex.toLex_lt_toLex.mpr (.inl h)

lemma key_lt_of_id {i : Nat} {a b : Id} (h : a < b) :
    (toLex (i, toLex (a, "")) : Nat ×ₗ Id ×ₗ String) < toLex (i, toLex (b, "")) :=
  Prod.Lex.toLex_lt_toLex.mpr (.inr ⟨rfl, Prod.Lex.toLex_lt_toLex.mpr (.inl h)⟩)

lemma candidates_sorted (s : Store Id) (R nodes blobs : List Id) :
    (s.candidates R nodes blobs).Pairwise (fun a b => a.key < b.key) := by
  unfold candidates
  simp only [List.pairwise_append, List.mem_append, List.mem_map, List.mem_filter]
  refine ⟨⟨⟨⟨?_, ?_, ?_⟩, ?_, ?_⟩, ?_, ?_⟩, ?_, ?_⟩
  · refine pairwise_part _ _ _ fun a b h => ?_
    exact Prod.Lex.toLex_lt_toLex.mpr (.inr ⟨rfl, h⟩)
  · exact pairwise_part _ _ _ fun a b h => key_lt_of_id h
  · rintro _ ⟨e, -, rfl⟩ _ ⟨e', -, rfl⟩
    exact key_lt_of_fst (by omega)
  · exact pairwise_part _ _ _ fun a b h => key_lt_of_id h
  · rintro _ (⟨e, -, rfl⟩ | ⟨e, -, rfl⟩) _ ⟨e', -, rfl⟩ <;> exact key_lt_of_fst (by omega)
  · exact pairwise_part _ _ _ fun a b h => key_lt_of_id h
  · rintro _ ((⟨e, -, rfl⟩ | ⟨e, -, rfl⟩) | ⟨e, -, rfl⟩) _ ⟨e', -, rfl⟩ <;>
      exact key_lt_of_fst (by omega)
  · exact pairwise_part _ _ _ fun a b h => key_lt_of_id h
  · rintro _ (((⟨e, -, rfl⟩ | ⟨e, -, rfl⟩) | ⟨e, -, rfl⟩) | ⟨e, -, rfl⟩) _ ⟨e', -, rfl⟩ <;>
      exact key_lt_of_fst (by omega)

/-- How many garbage records come before a record in key order. -/
noncomputable def rank (s : Store Id) (l : Limits) (c : Candidate Id) : Nat :=
  {d : Candidate Id | s.Garbage l d ∧ d.key < c.key}.ncard

/-- **What a collection with a budget deletes.** -/
def Doomed (s : Store Id) (l : Limits) (budget : Nat) (c : Candidate Id) : Prop :=
  s.Garbage l c ∧ s.rank l c < budget

variable {env : Env Id} {cs : List (Candidate Id)} {r : VersionGcReport} {s' : Store Id}

lemma rank_eq {n k : Nat} (h : s.mark env n l = some (.ok (k, cs))) (c : Candidate Id) :
    s.rank l c = cs.countP (fun d => d.key < c.key) := by
  obtain ⟨R, nodes, blobs, -, -, -, -, hcs⟩ := mark_eq_ok.mp h
  have hsorted : cs.Pairwise (fun a b => a.key < b.key) := hcs ▸ candidates_sorted ..
  have hnodup : (cs.filter (fun d => d.key < c.key)).Nodup :=
    (hsorted.imp fun {a b} hlt => fun (he : a = b) => absurd hlt (he ▸ lt_irrefl _)).filter _
  have hset : {d : Candidate Id | s.Garbage l d ∧ d.key < c.key}
      = ((cs.filter (fun d => d.key < c.key)).toFinset : Set (Candidate Id)) := by
    ext d
    simp [← mem_mark h d]
  unfold rank
  rw [hset, Set.ncard_coe_finset, List.toFinset_card_of_nodup hnodup, List.countP_eq_length_filter]

/-- **The first candidates are the doomed records.** -/
theorem mem_taken {n k b : Nat} (h : s.mark env n l = some (.ok (k, cs))) (c : Candidate Id) :
    c ∈ cs.take b ↔ s.Doomed l b c := by
  obtain ⟨R, nodes, blobs, -, -, -, -, hcs⟩ := mark_eq_ok.mp h
  have hsorted : cs.Pairwise (fun a b => a.key < b.key) := hcs ▸ candidates_sorted ..
  rw [mem_take_iff key hsorted, mem_mark h, ← rank_eq h]
  exact Iff.rfl

/-! ## Deleting records -/

lemma get?_removeAll {κ α : Type} [LinearOrder κ] (f : Store Id → OrdMap κ α)
    (tag : κ → Candidate Id) (hinj : Function.Injective tag)
    (hself : ∀ s k, f (s.remove (tag k)) = (f s).erase k)
    (hother : ∀ s c, (∀ k, c ≠ tag k) → f (s.remove c) = f s) (s : Store Id)
    (T : List (Candidate Id)) (k : κ) :
    (f (s.removeAll T)).get? k = if tag k ∈ T then none else (f s).get? k := by
  induction T generalizing s with
  | nil => rfl
  | cons c T ih =>
    rw [removeAll, List.foldl_cons, ← removeAll, ih]
    simp only [List.mem_cons]
    by_cases hT : tag k ∈ T
    · simp [hT]
    simp only [hT, if_false, or_false]
    by_cases hc : ∃ k', c = tag k'
    · obtain ⟨k', rfl⟩ := hc
      rw [hself, get?_erase]
      by_cases hk : k = k'
      · simp [hk]
      · rw [if_neg hk, if_neg fun h => hk (hinj h)]
    · rw [hother s c fun k' h => hc ⟨k', h⟩, if_neg]
      exact fun h => hc ⟨k, h.symm⟩

section

variable (s : Store Id) (T : List (Candidate Id))

@[simp] lemma get?_commits_removeAll (id : Id) :
    (s.removeAll T).commits.get? id = if .commit id ∈ T then none else s.commits.get? id :=
  get?_removeAll (fun s => s.commits) .commit (fun _ _ h => commit.inj h)
    (fun _ _ => rfl) (fun s c h => by cases c <;> first | rfl | exact absurd rfl (h _)) s T id

@[simp] lemma get?_nodes_removeAll (id : Id) :
    (s.removeAll T).nodes.get? id = if .node id ∈ T then none else s.nodes.get? id :=
  get?_removeAll (fun s => s.nodes) .node (fun _ _ h => node.inj h)
    (fun _ _ => rfl) (fun s c h => by cases c <;> first | rfl | exact absurd rfl (h _)) s T id

@[simp] lemma get?_blobs_removeAll (id : Id) :
    (s.removeAll T).blobs.get? id = if .blob id ∈ T then none else s.blobs.get? id :=
  get?_removeAll (fun s => s.blobs) .blob (fun _ _ h => blob.inj h)
    (fun _ _ => rfl) (fun s c h => by cases c <;> first | rfl | exact absurd rfl (h _)) s T id

@[simp] lemma get?_idempotency_removeAll (k : Id) :
    (s.removeAll T).idempotency.get? k =
      if .idempotency k ∈ T then none else s.idempotency.get? k :=
  get?_removeAll (fun s => s.idempotency) .idempotency (fun _ _ h => idempotency.inj h)
    (fun _ _ => rfl) (fun s c h => by cases c <;> first | rfl | exact absurd rfl (h _)) s T k

@[simp] lemma get?_attestations_removeAll (k : Id ×ₗ String) :
    (s.removeAll T).attestations.get? k =
      if .attestation (ofLex k).1 (ofLex k).2 ∈ T then none else s.attestations.get? k :=
  get?_removeAll (fun s => s.attestations) (fun k => .attestation (ofLex k).1 (ofLex k).2)
    (fun _ _ h => Prod.ext (attestation.inj h).1 (attestation.inj h).2) (fun _ _ => rfl)
    (fun s c h => by cases c <;> first | rfl | exact absurd rfl (h (toLex (_, _)))) s T k

end

/-- A deleted commit leaves a marker. -/
@[simp] lemma get?_pruned_removeAll (s : Store Id) (T : List (Candidate Id)) (id : Id) :
    (s.removeAll T).prunedCommits.get? id =
      if .commit id ∈ T then some () else s.prunedCommits.get? id := by
  induction T generalizing s with
  | nil => rfl
  | cons c T ih =>
    rw [removeAll, List.foldl_cons, ← removeAll, ih]
    simp only [List.mem_cons]
    by_cases hT : .commit id ∈ T
    · simp [hT]
    cases c with
    | commit c =>
      simp only [hT, remove, get?_insert, if_false, or_false, commit.injEq]
    | _ => simp [hT, remove]

lemma removeAll_frame {α : Type} (f : Store Id → α) (h : ∀ s c, f (s.remove c) = f s)
    (s : Store Id) (T : List (Candidate Id)) : f (s.removeAll T) = f s := by
  induction T generalizing s with
  | nil => rfl
  | cons c T ih => rw [removeAll, List.foldl_cons, ← removeAll, ih, h]

section

variable (s : Store Id) (T : List (Candidate Id))

@[simp] lemma branches_removeAll : (s.removeAll T).branches = s.branches :=
  removeAll_frame (fun s => s.branches) (fun s c => by cases c <;> rfl) s T

@[simp] lemma tags_removeAll : (s.removeAll T).tags = s.tags :=
  removeAll_frame (fun s => s.tags) (fun s c => by cases c <;> rfl) s T

@[simp] lemma reflogs_removeAll : (s.removeAll T).reflogs = s.reflogs :=
  removeAll_frame (fun s => s.reflogs) (fun s c => by cases c <;> rfl) s T

@[simp] lemma protections_removeAll : (s.removeAll T).protections = s.protections :=
  removeAll_frame (fun s => s.protections) (fun s c => by cases c <;> rfl) s T

@[simp] lemma identity_removeAll : (s.removeAll T).identity = s.identity :=
  removeAll_frame (fun s => s.identity) (fun s c => by cases c <;> rfl) s T

end

/-- Stores with the same records are equal. -/
lemma ext_families {s t : Store Id} (ha : s.attestations = t.attestations)
    (hb : s.blobs = t.blobs) (hc : s.commits = t.commits) (hn : s.nodes = t.nodes)
    (hp : s.prunedCommits = t.prunedCommits) (hi : s.idempotency = t.idempotency)
    (hr : s.branches = t.branches ∧ s.reflogs = t.reflogs ∧ s.tags = t.tags ∧
      s.protections = t.protections ∧ s.identity = t.identity) : s = t := by
  obtain ⟨⟨_, _, _, _, _, _, _, _⟩, _, _, _⟩ := s
  obtain ⟨⟨_, _, _, _, _, _, _, _⟩, _, _, _⟩ := t
  obtain ⟨h1, h2, h3, h4, h5⟩ := hr
  subst ha hb hc hn hp hi h1 h2 h3 h4 h5
  rfl

lemma removeAll_congr {s : Store Id} {T U : List (Candidate Id)} (h : ∀ c, c ∈ T ↔ c ∈ U) :
    s.removeAll T = s.removeAll U := by
  refine ext_families ?_ ?_ ?_ ?_ ?_ ?_ ⟨?_, ?_, ?_, ?_, ?_⟩
  all_goals first | (ext k; simp [h]) | simp

lemma collect_eq_ok {n b : Nat} :
    s.collect env n l false b = some (.ok (r, s')) ↔
      ∃ k cs, s.mark env n l = some (.ok (k, cs)) ∧
        r = report k (cs.take b) (cs.length - b) b false ∧ s' = s.removeAll (cs.take b) := by
  unfold collect
  constructor
  · intro h
    split at h
    · cases h
    · cases h
    rename_i k cs hm
    cases h
    exact ⟨k, cs, hm, rfl, rfl⟩
  · rintro ⟨k, cs, hm, rfl, rfl⟩
    simp [hm]

/-- **A collection deletes some garbage and nothing else.** -/
theorem garbageCollect_removes {n now : Nat} {keepLast maxAgeSecs b : Option Nat} {dryRun : Bool}
    (h : s.garbageCollect env n now keepLast maxAgeSecs dryRun b = some (.ok (r, s'))) :
    ∃ l T, s' = s.removeAll T ∧ ∀ c ∈ T, s.Garbage l c := by
  unfold garbageCollect at h
  dsimp only at h
  split at h
  · cases h
  unfold collect at h
  split at h
  · cases h
  · cases h
  rename_i k cs hm
  cases h
  cases dryRun with
  | true => exact ⟨⟨keepLast, none⟩, [], rfl, nofun⟩
  | false => exact ⟨_, _, rfl, fun c hc => (mem_mark hm c).mp (List.mem_of_mem_take hc)⟩

/-! ## Sweeping garbage -/

section Garbage

variable {T : List (Candidate Id)}
variable {id : Id}

lemma commits_sub {body : VersionCommitBody Id}
    (h : (s.removeAll T).commits.get? id = some body) :
    .commit id ∉ T ∧ s.commits.get? id = some body := by
  rwa [get?_commits_removeAll, Option.ite_none_left_eq_some] at h

lemma nodes_sub {node : Node Id} (h : (s.removeAll T).nodes.get? id = some node) :
    .node id ∉ T ∧ s.nodes.get? id = some node := by
  rwa [get?_nodes_removeAll, Option.ite_none_left_eq_some] at h

lemma reflogCommitIds_removeAll : (s.removeAll T).reflogCommitIds = s.reflogCommitIds := by
  unfold Objects.reflogCommitIds
  rw [reflogs_removeAll]

lemma pinned_removeAll : (s.removeAll T).Pinned id ↔ s.Pinned id := by
  unfold Objects.Pinned
  rw [tags_removeAll, reflogCommitIds_removeAll]

lemma parents_sub {x y : Id} (h : y ∈ (s.removeAll T).parents x) : y ∈ s.parents x := by
  obtain ⟨body, hb, hy⟩ := mem_follow.mp h
  exact mem_follow.mpr ⟨body, (commits_sub hb).2, hy⟩

lemma children_sub {x y : Id} (h : y ∈ (s.removeAll T).children x) : y ∈ s.children x := by
  obtain ⟨node, hn, hy⟩ := mem_follow.mp h
  exact mem_follow.mpr ⟨node, (nodes_sub hn).2, hy⟩

lemma nodeOf_sub {C D : Id → Prop} (hCD : ∀ c, C c → D c) {n : Id}
    (h : (s.removeAll T).NodeOf C n) : s.NodeOf D n := by
  refine Reach.mono h ?_ (fun _ _ => children_sub)
  rintro r ⟨c, body, hc, hb, hr⟩
  exact ⟨c, body, hCD c hc, (commits_sub hb).2, hr⟩

/-- Every commit kept after the sweep was kept before. -/
lemma kept_sub (h : (s.removeAll T).Kept l id) : s.Kept l id := by
  obtain ⟨b, head, p, body, hb, hl, hc, hk⟩ := h
  rw [branches_removeAll] at hb
  exact ⟨b, head, p, body, hb, hl.mono (fun _ _ h => (commits_sub h).2) (fun _ _ h => h),
    (commits_sub hc).2, hk⟩

lemma held_sub (h : (s.removeAll T).Held l id) : s.Held l id := by
  unfold Objects.Held at h ⊢
  split at h
  · rename_i hu
    rw [if_pos hu]
    exact h.mono (fun _ => kept_sub) (fun _ _ => parents_sub)
  · rename_i hu
    rw [if_neg hu]
    exact kept_sub h

/-- **A sweep never makes more retained.** -/
theorem retained_sub (h : (s.removeAll T).Retained l id) : s.Retained l id := by
  obtain ⟨body, hb⟩ := Option.isSome_iff_exists.mp h.1
  refine ⟨by rw [(commits_sub hb).2]; rfl, ?_⟩
  exact h.2.imp held_sub pinned_removeAll.mp

variable (hT : ∀ c ∈ T, s.Garbage l c)
include hT

lemma get?_commits_retained (h : s.Retained l id) :
    (s.removeAll T).commits.get? id = s.commits.get? id := by
  rw [get?_commits_removeAll, if_neg]
  exact fun hmem => (hT _ hmem).2 h

lemma get?_nodes_live {n : Id} (h : s.NodeOf (s.Retained l) n) :
    (s.removeAll T).nodes.get? n = s.nodes.get? n := by
  rw [get?_nodes_removeAll, if_neg]
  exact fun hmem => (hT _ hmem).2 h

lemma get?_attestations_retained {k : Id ×ₗ String} (h : s.Retained l (ofLex k).1) :
    (s.removeAll T).attestations.get? k = s.attestations.get? k := by
  rw [get?_attestations_removeAll, if_neg]
  exact fun hmem => (hT _ hmem).2 h

end Garbage

end Store

end SlateFs.Version
