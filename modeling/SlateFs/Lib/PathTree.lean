import SlateFs.Lib.Worklist

/-!
# Trees kept by path

A tree of named nodes as a finite map from paths to nodes: the root has the empty path,
and a node stands below a directory. Names and nodes are of any types.

Walking a subtree pops a path from a stack, visits it and pushes its children; it
visits the paths of the subtree and no others.
-/

namespace PathTree

open OrdMap Worklist

variable {ν β : Type} [LinearOrder ν]

/-- There is a root, and every other node is in a directory. -/
structure Shaped (isDir : β → Bool) (m : OrdMap (List ν) β) : Prop where
  root : ∃ d, m.get? [] = some d ∧ isDir d = true
  parent : ∀ p n v, m.get? (p ++ [n]) = some v → ∃ d, m.get? p = some d ∧ isDir d = true

variable {isDir : β → Bool} {m : OrdMap (List ν) β} {p q root : List ν}

lemma Shaped.above (h : Shaped isDir m) :
    ∀ {q : List ν} {v : β}, m.get? (p ++ q) = some v → q ≠ [] →
      ∃ d, m.get? p = some d ∧ isDir d = true := by
  intro q
  induction q using List.reverseRecOn with
  | nil => exact fun _ hne => absurd rfl hne
  | append_singleton q n ih =>
    intro v hv _
    rw [← List.append_assoc] at hv
    obtain ⟨d, hd, hdir⟩ := h.parent _ _ _ hv
    cases q with
    | nil => exact ⟨d, by rwa [List.append_nil] at hd, hdir⟩
    | cons x q => exact ih hd (List.cons_ne_nil _ _)

lemma Shaped.present (h : Shaped isDir m) (hpq : p <+: q) (hq : (m.get? q).isSome) :
    (m.get? p).isSome := by
  obtain ⟨r, rfl⟩ := hpq
  obtain ⟨v, hv⟩ := Option.isSome_iff_exists.mp hq
  by_cases hr : r = []
  · rw [hr, List.append_nil] at hv
    rw [hv]
    rfl
  · obtain ⟨d, hd, -⟩ := h.above hv hr
    rw [hd]
    rfl

lemma Shaped.below (h : Shaped isDir m) (hp : ∀ d, m.get? p = some d → isDir d = false)
    (hq : q ≠ []) :
    m.get? (p ++ q) = none := by
  cases hv : m.get? (p ++ q) with
  | none => rfl
  | some v =>
    obtain ⟨d, hd, hdir⟩ := h.above hv hq
    rw [hp d hd] at hdir
    cases hdir

/-- A node may be put below a directory, if what is below it stays below a directory. -/
lemma Shaped.insert (h : Shaped isDir m) {v : β}
    (hparent : ∀ q n, p = q ++ [n] → ∃ d, m.get? q = some d ∧ isDir d = true)
    (hchildren : ∀ n, (m.get? (p ++ [n])).isSome → isDir v = true)
    (hroot : p = [] → isDir v = true) :
    Shaped isDir (m.insert p v) := by
  refine ⟨?_, fun q n w hw => ?_⟩
  · rw [get?_insert]
    split
    · rename_i heq
      exact ⟨v, rfl, hroot heq.symm⟩
    · exact h.root
  · -- the parent of a node is the new node, or as before
    have hq : ∃ d, m.get? q = some d ∧ isDir d = true := by
      rw [get?_insert] at hw
      split at hw
      · rename_i heq
        exact hparent q n heq.symm
      · exact h.parent q n w hw
    rw [get?_insert]
    split
    · rename_i heq
      subst heq
      refine ⟨v, rfl, hchildren n ?_⟩
      rw [get?_insert_of_ne _ _ (by simp)] at hw
      rw [hw]
      rfl
    · exact hq

/-- A node that has nothing below it may be taken away. -/
lemma Shaped.erase (h : Shaped isDir m) (hne : p ≠ []) (hleaf : ∀ n, m.get? (p ++ [n]) = none) :
    Shaped isDir (m.erase p) := by
  refine ⟨?_, fun q n w hw => ?_⟩
  · rw [get?_erase_of_ne _ hne.symm]
    exact h.root
  have hold := get?_of_get?_erase hw
  have hqp : q ≠ p := by
    intro heq
    rw [heq, hleaf n] at hold
    cases hold
  rw [get?_erase_of_ne _ hqp]
  exact h.parent q n w hold

/-! ## Children and subtrees -/

/-- The paths directly below a path. -/
def children (m : OrdMap (List ν) β) (p : List ν) : List (List ν) :=
  (m.scan fun q => q ≠ [] ∧ q.dropLast = p).map Prod.fst

lemma mem_children : q ∈ children m p ↔ (∃ n, q = p ++ [n]) ∧ (m.get? q).isSome := by
  unfold children
  rw [List.mem_map]
  constructor
  · rintro ⟨⟨q, v⟩, h, rfl⟩
    obtain ⟨hget, hq⟩ := mem_scan.mp h
    obtain ⟨hne, rfl⟩ := of_decide_eq_true hq
    exact ⟨⟨q.getLast hne, (List.dropLast_append_getLast hne).symm⟩, by rw [hget]; rfl⟩
  · rintro ⟨⟨n, rfl⟩, h⟩
    obtain ⟨v, hv⟩ := Option.isSome_iff_exists.mp h
    refine ⟨(p ++ [n], v), mem_scan.mpr ⟨hv, ?_⟩, rfl⟩
    exact decide_eq_true ⟨by simp, by simp⟩

/-- The paths of a subtree, in the order in which a stack visits them. -/
def subtree (m : OrdMap (List ν) β) (root : List ν) : List (List ν) :=
  match walk (fun p => (.ok (children m p) : Except Unit _))
    (1 + m.entries.length * m.entries.length) [] [root] with
  | .ok visited => visited.reverse
  | .error _ => []

lemma children_length (m : OrdMap (List ν) β) (p : List ν) :
    (children m p).length ≤ m.entries.length := by
  unfold children OrdMap.scan
  rw [List.length_map]
  exact List.length_filter_le ..

/-- Descending from a present root reaches just what is present below it. -/
lemma reach_children (h : Shaped isDir m) (hroot : (m.get? root).isSome) :
    Reach (children m) (· ∈ [root]) q ↔ root <+: q ∧ (m.get? q).isSome := by
  constructor
  · intro hr
    refine hr.mem_of_closed (S := fun q => root <+: q ∧ (m.get? q).isSome) ?_ ?_
    · intro y hy
      rw [List.mem_singleton.mp hy]
      exact ⟨List.prefix_rfl, hroot⟩
    · rintro y z ⟨hy, -⟩ hz
      obtain ⟨⟨n, rfl⟩, hn⟩ := mem_children.mp hz
      exact ⟨hy.trans (List.prefix_append ..), hn⟩
  · rintro ⟨⟨r, rfl⟩, hq⟩
    -- one name after the other
    induction r using List.reverseRecOn with
    | nil =>
      rw [List.append_nil]
      exact .root (List.mem_singleton_self _)
    | append_singleton r n ih =>
      rw [← List.append_assoc] at hq ⊢
      exact .step (ih (h.present (List.prefix_append ..) hq)) (mem_children.mpr ⟨⟨n, rfl⟩, hq⟩)

/-- The children of all paths pay for the walk. -/
lemma todo_children (m : OrdMap (List ν) β) :
    todo (fun p => (children m p).length) (m.entries.map Prod.fst) [] ≤
      m.entries.length * m.entries.length := by
  refine (List.sum_le_card_nsmul _ m.entries.length ?_).trans (by simp)
  intro n hn
  obtain ⟨p, -, rfl⟩ := List.mem_map.mp hn
  exact children_length m p

/-- **A walk visits the paths of the subtree.** -/
theorem mem_subtree (h : Shaped isDir m) (hroot : (m.get? root).isSome) :
    q ∈ subtree m root ↔ root <+: q ∧ (m.get? q).isSome := by
  have hU : ∀ x, succ (fun p => (.ok (children m p) : Except Unit _)) x ≠ [] →
      x ∈ m.entries.map Prod.fst := by
    intro x hx
    obtain ⟨y, hy⟩ := List.exists_mem_of_ne_nil _ hx
    obtain ⟨⟨n, rfl⟩, hn⟩ := mem_children.mp hy
    obtain ⟨v, hv⟩ := Option.isSome_iff_exists.mp hn
    obtain ⟨d, hd, -⟩ := h.parent _ _ _ hv
    exact List.mem_map.mpr ⟨(x, d), mem_entries.mpr hd, rfl⟩
  have hfuel : [root].length + todo (fun x => (succ (fun p =>
      (.ok (children m p) : Except Unit _)) x).length) (m.entries.map Prod.fst) [] ≤
      1 + m.entries.length * m.entries.length := Nat.add_le_add_left (todo_children m) 1
  unfold subtree
  split
  · rename_i visited hv
    rw [List.mem_reverse, (walk_ok hU hfuel hv q).1]
    exact reach_children h hroot
  · rename_i hv
    obtain ⟨_, -, he⟩ := walk_error _ hv
    cases he

end PathTree
