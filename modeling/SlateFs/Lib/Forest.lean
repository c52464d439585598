import Mathlib.Data.List.Basic
import Mathlib.Data.List.Nodup
import Mathlib.Logic.Function.Basic

/-!
# Trees kept as parent pointers

A tree stored as one pointer per node, towards the root. `Climbs` says that
following the pointers from a node ends at the root, and `Avoids` that it ends
there without meeting a given node.

The one delicate edit is moving a node, subtree and all, below another one. It is
safe exactly when the new parent climbs to the root without passing the moved
node, which is what a walk from the new parent to the root checks
(`Climbs.move`).
-/

namespace Forest

variable {ι : Type}

/-- Following `up` from `x` ends at `root`. -/
inductive Climbs (up : ι → ι) (root : ι) : ι → Prop where
  | root : Climbs up root root
  | step {x : ι} : Climbs up root (up x) → Climbs up root x

/-- Following `up` from `x` ends at `root` and does not meet `m`. -/
inductive Avoids (up : ι → ι) (root m : ι) : ι → Prop where
  | root : root ≠ m → Avoids up root m root
  | step {x : ι} : x ≠ m → Avoids up root m (up x) → Avoids up root m x

variable {up up' : ι → ι} {root x : ι} {D : ι → Prop} {xs : List ι}

lemma Avoids.climbs {m : ι} (h : Avoids up root m x) : Climbs up root x := by
  induction h with
  | root _ => exact .root
  | step _ _ ih => exact .step ih

lemma Avoids.ne {m : ι} (h : Avoids up root m x) : x ≠ m := by
  cases h with
  | root h => exact h
  | step h _ => exact h

/-- Pointers that agree away from `m` climb alike as long as `m` is avoided. -/
lemma Avoids.congr {m : ι} (h : Avoids up root m x) (hup : ∀ y, y ≠ m → up' y = up y) :
    Avoids up' root m x := by
  induction h with
  | root h => exact .root h
  | step h _ ih =>
    refine .step h ?_
    rw [hup _ h]
    exact ih

/-- **Moving a node.** Repointing `m` to a node that avoids `m` leaves a tree. -/
theorem Climbs.move {m p : ι} (h : Climbs up root x) (hup : ∀ y, y ≠ m → up' y = up y)
    (hm : up' m = p) (hp : Avoids up root m p) :
    Climbs up' root x := by
  induction h with
  | root => exact .root
  | @step x _ ih =>
    refine .step ?_
    by_cases hx : x = m
    · rw [hx, hm]
      exact (hp.congr hup).climbs
    · rw [hup x hx]
      exact ih

/-- Following `up` inside a closed set is unchanged by edits outside it. -/
lemma Climbs.congr_on (h : Climbs up root x) (hx : D x) (hD : ∀ y, D y → y ≠ root → D (up y))
    (hup : ∀ y, D y → up' y = up y) :
    Climbs up' root x := by
  induction h with
  | root => exact .root
  | @step x _ ih =>
    by_cases hr : x = root
    · rw [hr]; exact .root
    refine .step ?_
    rw [hup x hx]
    exact ih (hD x hx hr)

/-- The same for a climb that avoids a node. -/
lemma Avoids.congr_on {m : ι} (h : Avoids up root m x) (hx : D x)
    (hD : ∀ y, D y → y ≠ root → D (up y)) (hup : ∀ y, D y → up' y = up y) :
    Avoids up' root m x := by
  induction h with
  | root hm => exact .root hm
  | @step x hm _ ih =>
    by_cases hr : x = root
    · rw [hr] at hm ⊢
      exact .root hm
    · refine .step hm ?_
      rw [hup x hx]
      exact ih (hD x hx hr)

/-- The nodes met from `x` up to the root, both included. -/
inductive Path (up : ι → ι) (root : ι) : ι → List ι → Prop where
  | root : Path up root root [root]
  | step {x : ι} {xs : List ι} : x ≠ root → Path up root (up x) xs → Path up root x (x :: xs)

lemma Climbs.path (h : Climbs up root x) : ∃ xs, Path up root x xs := by
  induction h with
  | root => exact ⟨_, .root⟩
  | @step x _ ih =>
    by_cases hr : x = root
    · subst hr; exact ⟨_, .root⟩
    · obtain ⟨xs, hxs⟩ := ih
      exact ⟨_, .step hr hxs⟩

lemma Path.unique {ys : List ι} (h : Path up root x xs) (h' : Path up root x ys) : xs = ys := by
  induction h generalizing ys with
  | root =>
    cases h' with
    | root => rfl
    | step h _ => exact absurd rfl h
  | step hne _ ih =>
    cases h' with
    | root => exact absurd rfl hne
    | step _ h'' => rw [ih h'']

/-- From any node on a path, the rest of the path is that node's own path. -/
lemma Path.suffix {y : ι} (h : Path up root x xs) (hy : y ∈ xs) :
    ∃ ys, Path up root y ys ∧ ys.length ≤ xs.length := by
  induction h with
  | root =>
    rw [List.mem_singleton.mp hy]
    exact ⟨_, .root, Nat.le_refl _⟩
  | @step x xs hne hp ih =>
    rcases List.mem_cons.mp hy with rfl | hy
    · exact ⟨_, .step hne hp, Nat.le_refl _⟩
    · obtain ⟨ys, hys, hlen⟩ := ih hy
      exact ⟨ys, hys, Nat.le_succ_of_le hlen⟩

lemma Path.forall (h : Path up root x xs) (hx : D x) (hup : ∀ y, D y → y ≠ root → D (up y)) :
    ∀ y ∈ xs, D y := by
  induction h with
  | root =>
    intro y hy
    rw [List.mem_singleton.mp hy]; exact hx
  | step hne _ ih =>
    intro y hy
    rcases List.mem_cons.mp hy with rfl | hy
    · exact hx
    · exact ih (hup _ hx hne) y hy

lemma Path.nodup (h : Path up root x xs) : xs.Nodup := by
  induction h with
  | root => exact List.nodup_singleton _
  | @step x xs hne hp ih =>
    refine List.nodup_cons.mpr ⟨?_, ih⟩
    intro hx
    -- a repeat would make `x` reach the root by a path shorter than its own
    obtain ⟨ys, hys, hlen⟩ := hp.suffix hx
    have := hys.unique (.step hne hp)
    rw [this, List.length_cons] at hlen
    omega

end Forest
