import SlateFs.Lib.Bfs
import SlateFs.Version.Digest
import Mathlib.Data.List.MinMax

/-!
# Ancestors and merge bases

The history of a repository is a graph: every commit names its parents. A merge of two
branches starts from a common ancestor of their heads, and `merge_base` takes the one
whose distances to the two heads have the least sum.

That need not be a best common ancestor. A merge of a short side branch brings an old
commit near, and a younger commit that both heads descend from along the main line is
then passed over.
-/

namespace SlateFs.Version

open Worklist

variable {Id : Type} [ObjectId Id]

namespace Objects

/-- `commit_is_ancestor`: the search ends when it meets the ancestor, which does not change the
answer. -/
def commitIsAncestor (s : Objects Id) (ancestor descendant : Id) : Bool :=
  match search s.commits (·.parents) (fun id => .ok (s.parents id) : Id → Except Empty (List Id))
    [descendant] with
  | .ok seen => ancestor ∈ seen
  | .error _ => false

/-- `ancestor_distances` -/
def ancestorDistances (s : Objects Id) (start : Id) : List (Id × Nat) :=
  bfs s.parents (fuel s.commits (·.parents) [start]) [] [(start, 0)]

/-- The common ancestors of two commits, each with the sum of its distances. -/
def commonDistances (s : Objects Id) (left right : Id) : List (Id × Nat) :=
  (s.ancestorDistances left).filterMap fun e =>
    ((s.ancestorDistances right).find? fun f => f.1 = e.1).map fun f => (e.1, e.2 + f.2)

/-- `merge_base` -/
def mergeBase (s : Objects Id) (left right : Id) : Option Id :=
  ((s.commonDistances left right).argmin fun e => toLex (e.2, e.1)).map (·.1)

/-! ## Ancestors -/

/-- A commit is an ancestor of another, or the same. -/
def Ancestor (s : Objects Id) (a c : Id) : Prop := Reach s.parents (· = c) a

variable {s : Objects Id} {left right : Id}

lemma Ancestor.trans {a b c : Id} (hab : s.Ancestor a b) (hbc : s.Ancestor b c) :
    s.Ancestor a c :=
  hab.mem_of_closed (fun _ h => h ▸ hbc) (fun _ _ h hz => .step h hz)

lemma commitIsAncestor_iff {a c : Id} : s.commitIsAncestor a c = true ↔ s.Ancestor a c := by
  have hx : ∀ x ys, (.ok (s.parents x) : Except Empty (List Id)) = .ok ys → ys = s.parents x :=
    fun _ _ h => (Except.ok.inj h).symm
  have hroot : (fun x => x ∈ [c]) = fun x => x = c := by
    funext x
    rw [List.mem_singleton]
  obtain ⟨seen, hseen⟩ : ∃ seen, search s.commits (·.parents)
      (fun id => .ok (s.parents id) : Id → Except Empty (List Id)) [c] = .ok seen :=
    (search_ok_iff hx).mpr fun x _ => ⟨_, rfl⟩
  unfold commitIsAncestor Ancestor
  rw [hseen, decide_eq_true_eq, mem_search hx hseen, hroot]
  exact Iff.rfl

/-- Distances are the lengths of shortest paths along parents. -/
lemma mem_ancestorDistances {start x : Id} {d : Nat} :
    (x, d) ∈ s.ancestorDistances start ↔ Distance s.parents start d x := by
  have hx : ∀ x ys, (.ok (s.parents x) : Except Empty (List Id)) = .ok ys → ys = s.parents x :=
    fun _ _ h => (Except.ok.inj h).symm
  obtain ⟨hU, hfuel⟩ := fuel_spec hx [start]
  exact mem_bfs hU hfuel

/-- The sum of the distances to two commits. -/
def DistanceSum (s : Objects Id) (left right c : Id) (n : Nat) : Prop :=
  ∃ i j, Distance s.parents left i c ∧ Distance s.parents right j c ∧ n = i + j

lemma mem_commonDistances {c : Id} {n : Nat} :
    (c, n) ∈ s.commonDistances left right ↔ s.DistanceSum left right c n := by
  unfold commonDistances DistanceSum
  rw [List.mem_filterMap]
  constructor
  · rintro ⟨⟨c', i⟩, hi, h⟩
    obtain ⟨⟨c'', j⟩, hfind, heq⟩ := Option.map_eq_some_iff.mp h
    obtain ⟨rfl, rfl⟩ := Prod.mk.inj heq
    have hc : c'' = c' := by simpa using List.find?_some hfind
    subst hc
    exact ⟨i, j, mem_ancestorDistances.mp hi,
      mem_ancestorDistances.mp (List.mem_of_find?_eq_some hfind), rfl⟩
  · rintro ⟨i, j, hi, hj, rfl⟩
    refine ⟨(c, i), mem_ancestorDistances.mpr hi, ?_⟩
    cases hfind : (s.ancestorDistances right).find? fun f => f.1 = c with
    | none =>
      have := List.find?_eq_none.mp hfind _ (mem_ancestorDistances.mpr hj)
      simp at this
    | some f =>
      have hf : f.1 = c := by simpa using List.find?_some hfind
      have hfd : Distance s.parents right f.2 c :=
        hf ▸ mem_ancestorDistances.mp (List.mem_of_find?_eq_some hfind)
      rw [Option.map_some, hfd.unique hj]

/-! ## Merge bases -/

/-- A common ancestor of two commits. -/
def Common (s : Objects Id) (left right c : Id) : Prop := s.Ancestor c left ∧ s.Ancestor c right

/-- Another common ancestor descends from this one. -/
def Overtaken (s : Objects Id) (left right c : Id) : Prop :=
  ∃ b, s.Common left right b ∧ b ≠ c ∧ s.Ancestor c b

/-- A common ancestor is nearer than another: a smaller sum of distances, or the same sum and a
smaller id. -/
def Nearer (s : Objects Id) (left right c d : Id) : Prop :=
  ∃ m n, s.DistanceSum left right c m ∧ s.DistanceSum left right d n ∧
    toLex (m, c) < toLex (n, d)

lemma common_iff {c : Id} : s.Common left right c ↔ ∃ n, s.DistanceSum left right c n := by
  unfold Common Ancestor DistanceSum
  rw [← exists_distance_iff, ← exists_distance_iff]
  constructor
  · rintro ⟨⟨i, hi⟩, ⟨j, hj⟩⟩
    exact ⟨_, i, j, hi, hj, rfl⟩
  · rintro ⟨-, i, j, hi, hj, -⟩
    exact ⟨⟨i, hi⟩, ⟨j, hj⟩⟩

/-- **`merge_base` is the nearest common ancestor.** -/
theorem mergeBase_spec (h : ∃ c, s.Common left right c) :
    ∃ base, s.mergeBase left right = some base ∧ s.Common left right base ∧
      ∀ c, ¬ s.Nearer left right c base := by
  unfold mergeBase
  cases hmin : (s.commonDistances left right).argmin fun e => toLex (e.2, e.1) with
  | none =>
    obtain ⟨c, hc⟩ := h
    obtain ⟨n, hn⟩ := common_iff.mp hc
    have := mem_commonDistances.mpr hn
    rw [List.argmin_eq_none.mp hmin] at this
    cases this
  | some e =>
    have hmem := mem_commonDistances.mp (List.argmin_mem hmin)
    refine ⟨e.1, rfl, common_iff.mpr ⟨_, hmem⟩, ?_⟩
    rintro c ⟨m, n, hc, hb, hlt⟩
    have hn : n = e.2 := by
      obtain ⟨i, j, hi, hj, rfl⟩ := hb
      obtain ⟨i', j', hi', hj', he⟩ := hmem
      rw [he, hi.unique hi', hj.unique hj']
    subst hn
    exact absurd (List.le_of_mem_argmin (mem_commonDistances.mpr hc) hmin) (not_le.mpr hlt)

/-- Distances with ids order the common ancestors. -/
lemma nearer_total {c d : Id} (hc : s.Common left right c) (hd : s.Common left right d)
    (hne : c ≠ d) :
    s.Nearer left right c d ∨ s.Nearer left right d c := by
  obtain ⟨m, hm⟩ := common_iff.mp hc
  obtain ⟨n, hn⟩ := common_iff.mp hd
  rcases lt_trichotomy (toLex (m, c)) (toLex (n, d)) with h | h | h
  · exact .inl ⟨m, n, hm, hn, h⟩
  · exact absurd (Prod.mk.inj (toLex.injective h)).2 hne
  · exact .inr ⟨n, m, hn, hm, h⟩

/-- **`merge_base` is a best common ancestor just when every common ancestor that another one
descends from is farther away than some best one.** -/
theorem mergeBase_best_iff (s : Objects Id) (left right : Id) :
    ((∃ c, s.Common left right c) → ∃ base, s.mergeBase left right = some base ∧
        s.Common left right base ∧ ¬ s.Overtaken left right base) ↔
      ∀ c, s.Common left right c → s.Overtaken left right c →
        ∃ best, s.Common left right best ∧ ¬ s.Overtaken left right best ∧
          s.Nearer left right best c := by
  constructor
  · intro h c hc hover
    obtain ⟨base, hbase, hcommon, hbest⟩ := h ⟨c, hc⟩
    obtain ⟨base', hbase', -, hnear⟩ := mergeBase_spec ⟨c, hc⟩
    rw [hbase] at hbase'
    cases hbase'
    have hne : base ≠ c := fun he => hbest (he ▸ hover)
    exact ⟨base, hcommon, hbest, (nearer_total hcommon hc hne).resolve_right (hnear c)⟩
  · intro h hex
    obtain ⟨base, hbase, hcommon, hnear⟩ := mergeBase_spec hex
    refine ⟨base, hbase, hcommon, fun hover => ?_⟩
    obtain ⟨best, -, -, hlt⟩ := h base hcommon hover
    exact hnear best hlt

end Objects

/-! ## A base that is passed over -/

namespace Digest

def first : VersionCommitBody Digest := commitOf [] 0 0

/-- The commit that both main lines come from. -/
def second : VersionCommitBody Digest := commitOf [idOf first] 1 1

/-- A main line of `n` commits on top of `second`. -/
def mainLine (b : UInt8) : Nat → VersionCommitBody Digest
  | 0 => second
  | n + 1 => commitOf [idOf (mainLine b n)] b (n + 2)

/-- A side branch off the first commit. -/
def side (b : UInt8) : VersionCommitBody Digest := commitOf [idOf first] b 1

/-- The side branch is merged into the main line. -/
def merged (b c : UInt8) : VersionCommitBody Digest :=
  commitOf [idOf (mainLine b 2), idOf (side c)] b 9

def shortcuts : Store Digest := storeOf [0, 1, 2, 3, 4, 5]
  [first, second, mainLine 2 1, mainLine 2 2, side 4, merged 2 4,
    mainLine 3 1, mainLine 3 2, side 5, merged 3 5] [] [] []

lemma parent_of {s : Store Digest} {id parent : Digest} (h : parent ∈ s.parents id) :
    s.Ancestor parent id := .step (.root rfl) h

end Digest

open Digest in
/-- Both heads descend from `second`, a child of `first`, in three steps; over the side branches
they reach `first` in two. -/
theorem mergeBase_passes_over :
    ¬ ((∃ c, shortcuts.Common (idOf (merged 2 4)) (idOf (merged 3 5)) c) →
      ∃ base, shortcuts.mergeBase (idOf (merged 2 4)) (idOf (merged 3 5)) = some base ∧
        shortcuts.Common (idOf (merged 2 4)) (idOf (merged 3 5)) base ∧
        ¬ shortcuts.Overtaken (idOf (merged 2 4)) (idOf (merged 3 5)) base) := by
  have hbase : shortcuts.mergeBase (idOf (merged 2 4)) (idOf (merged 3 5)) = some (idOf first) := by
    decide +kernel
  have hline : ∀ b ∈ [2, 3], shortcuts.Ancestor (idOf second) (idOf (mainLine b 2)) := by
    intro b hb
    have h1 : idOf second ∈ shortcuts.parents (idOf (mainLine b 1)) := by
      revert b
      decide +kernel
    have h2 : idOf (mainLine b 1) ∈ shortcuts.parents (idOf (mainLine b 2)) := by
      revert b
      decide +kernel
    exact (parent_of h1).trans (parent_of h2)
  have hcommon : shortcuts.Common (idOf (merged 2 4)) (idOf (merged 3 5)) (idOf second) :=
    ⟨(hline 2 (by decide)).trans (parent_of (by decide +kernel)),
      (hline 3 (by decide)).trans (parent_of (by decide +kernel))⟩
  intro h
  obtain ⟨base, hb, -, hbest⟩ := h ⟨_, hcommon⟩
  rw [hbase] at hb
  cases hb
  exact hbest ⟨idOf second, hcommon, by decide +kernel, parent_of (by decide +kernel)⟩

end SlateFs.Version
