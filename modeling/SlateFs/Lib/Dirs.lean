import SlateFs.Lib.Forest

/-!
# Directories

A hierarchy of directories seen from two sides: each directory points to the one
above it, and entries point down, from a directory and a name to a child. An
entry says whether its child is a directory; children that are not may have any
number of entries.

`IsTree` is what it takes for the two sides to agree. Each edit of a hierarchy
has one lemma here saying when the result is a tree again.
-/

/-- Directories over node numbers `ι` and names `ν`. -/
structure Dirs (ι ν : Type) where
  /-- The directory above, for the numbers that are directories. -/
  parent : ι → Option ι
  /-- The child under a name, and whether it is a directory. -/
  entry : ι × ν → Option (ι × Bool)

namespace Dirs

variable {ι ν : Type}

/-- Follow the parent pointer; elsewhere stay put. -/
def up (N : Dirs ι ν) (x : ι) : ι := (N.parent x).getD x

/-- The entries and the parent pointers describe one tree. -/
structure IsTree (N : Dirs ι ν) (root : ι) : Prop where
  /-- The root is a directory. -/
  root_dir : (N.parent root).isSome
  /-- No entry names the root. -/
  root_unnamed : ∀ k b, N.entry k ≠ some (root, b)
  /-- Entries are held by directories. -/
  holder : ∀ p e c, N.entry (p, e) = some c → (N.parent p).isSome
  /-- An entry for a directory is where that directory says it is. -/
  child : ∀ p e x, N.entry (p, e) = some (x, true) → N.parent x = some p
  /-- An entry for something else does not name a directory. -/
  leaf : ∀ k x, N.entry k = some (x, false) → N.parent x = none
  /-- A directory other than the root has an entry. -/
  named : ∀ x p, N.parent x = some p → x ≠ root → ∃ e, N.entry (p, e) = some (x, true)
  /-- A directory has only one entry. -/
  unique : ∀ k k' x, N.entry k = some (x, true) → N.entry k' = some (x, true) → k = k'
  /-- Every directory is below the root. -/
  climbs : ∀ x, (N.parent x).isSome → Forest.Climbs N.up root x

namespace IsTree

variable {N N' : Dirs ι ν} {root : ι}

lemma lone (hroot : (N.parent root).isSome) (hp : ∀ x, (N.parent x).isSome → x = root)
    (he : ∀ k, N.entry k = none) : N.IsTree root where
  root_dir := hroot
  root_unnamed k b := by simp [he k]
  holder p e c h := by simp [he] at h
  child p e x h := by simp [he] at h
  leaf k x h := by simp [he] at h
  named x p h hne := absurd (hp x (by simp [h])) hne
  unique k k' x h := by simp [he] at h
  climbs x hx := by rw [hp x hx]; exact .root

lemma up_of_parent {x p : ι} (h : N.parent x = some p) : N.up x = p := by simp [up, h]

lemma parent_isSome (h : N.IsTree root) {x p : ι} (hx : N.parent x = some p) (hr : x ≠ root) :
    (N.parent p).isSome := by
  obtain ⟨e, he⟩ := h.named x p hx hr
  exact h.holder p e _ he

lemma entry_ne (h : N.IsTree root) {p x : ι} {e : ν} {b : Bool}
    (he : N.entry (p, e) = some (x, b)) : x ≠ p := by
  rintro rfl
  cases b with
  | false =>
    have := h.holder _ _ _ he
    rw [h.leaf _ _ he] at this
    cases this
  | true =>
    have hp := h.child _ _ _ he
    have hr : x ≠ root := fun hr => h.root_unnamed _ _ (hr ▸ he)
    -- a directory that is its own parent never climbs to the root
    have hstay : ∀ y, Forest.Climbs N.up root y → y = x → False := by
      intro y hy
      induction hy with
      | root => exact fun hx => hr hx.symm
      | step _ ih =>
        rintro rfl
        exact ih (up_of_parent hp)
    exact hstay x (h.climbs x (by simp [hp])) rfl

/-- Entries for things that are not directories come and go freely. -/
lemma leaves (h : N.IsTree root) (hp : ∀ x, N'.parent x = N.parent x)
    (he : ∀ k, N'.entry k = N.entry k ∨ (∀ x, N.entry k ≠ some (x, true)) ∧
      ∀ x b, N'.entry k = some (x, b) → b = false ∧ (N.parent k.1).isSome ∧ N.parent x = none) :
    N'.IsTree root := by
  have hnew : ∀ {k x b}, N'.entry k = some (x, b) → N.entry k = some (x, b) ∨
      b = false ∧ (N.parent k.1).isSome ∧ N.parent x = none := by
    intro k x b hk
    rcases he k with heq | ⟨-, hleaf⟩
    · exact .inl (heq ▸ hk)
    · exact .inr (hleaf x b hk)
  have hdir : ∀ {k x}, N'.entry k = some (x, true) → N.entry k = some (x, true) :=
    fun hk => (hnew hk).resolve_right fun h => Bool.noConfusion h.1
  refine ⟨?_, ?_, ?_, ?_, ?_, ?_, ?_, ?_⟩
  · rw [hp]; exact h.root_dir
  · intro k b hb
    rcases hnew hb with hb | ⟨-, -, hb⟩
    · exact h.root_unnamed _ _ hb
    · have := h.root_dir
      rw [hb] at this
      cases this
  · rintro p e ⟨x, b⟩ hb
    rw [hp]
    rcases hnew hb with hb | ⟨-, hb, -⟩
    · exact h.holder _ _ _ hb
    · exact hb
  · intro p e x hx
    rw [hp]
    exact h.child _ _ _ (hdir hx)
  · intro k x hb
    rw [hp]
    rcases hnew hb with hb | ⟨-, -, hb⟩
    · exact h.leaf _ _ hb
    · exact hb
  · intro x p hx hr
    obtain ⟨e, hx⟩ := h.named x p (by rw [← hp]; exact hx) hr
    rcases he (p, e) with heq | ⟨hleaf, -⟩
    · exact ⟨e, heq ▸ hx⟩
    · exact absurd hx (hleaf x)
  · exact fun k k' x hk hk' => h.unique k k' x (hdir hk) (hdir hk')
  · intro x hx
    have hup : N'.up = N.up := by funext y; simp [up, hp]
    rw [hup]
    exact h.climbs x (by rw [← hp]; exact hx)

section Edits

variable [DecidableEq ι] [DecidableEq ν]

/-- A directory comes to stand under a free name, and loses the name it had, if it had one. -/
lemma place (h : N.IsTree root) (old : Option (ι × ν)) {q x : ι} {f : ν} (hroot : root ≠ x)
    (hold : ∀ k b, N.entry k = some (x, b) → old = some k)
    (hdrop : ∀ k y b, old = some k → N.entry k = some (y, b) → y = x)
    (hfree : N.entry (q, f) = none) (hq : (N.parent q).isSome)
    (hp' : ∀ y, N'.parent y = if y = x then some q else N.parent y)
    (he' : ∀ k, N'.entry k =
      if k = (q, f) then some (x, true) else if old = some k then none else N.entry k)
    (hclimbs : ∀ y, (N'.parent y).isSome → Forest.Climbs N'.up root y) : N'.IsTree root := by
  have hsome : ∀ y, (N.parent y).isSome → (N'.parent y).isSome := by
    intro y hy
    rw [hp']
    split
    · rfl
    · exact hy
  have hcases : ∀ {k c}, N'.entry k = some c →
      (k = (q, f) ∧ c = (x, true)) ∨ (N.entry k = some c ∧ old ≠ some k) := by
    intro k c hk
    rw [he'] at hk
    split at hk
    · exact .inl ⟨‹_›, (Option.some.inj hk).symm⟩
    split at hk
    · cases hk
    · exact .inr ⟨hk, ‹_›⟩
  have hother : ∀ {k y b}, N.entry k = some (y, b) → old ≠ some k → y ≠ x := by
    rintro k y b hk hne rfl
    exact hne (hold k b hk)
  refine ⟨?_, ?_, ?_, ?_, ?_, ?_, ?_, hclimbs⟩
  · exact hsome root h.root_dir
  · intro k b hk
    rcases hcases hk with ⟨-, hc⟩ | ⟨hk, -⟩
    · exact hroot (Prod.mk.inj hc).1
    · exact h.root_unnamed _ _ hk
  · intro a g c ha
    rcases hcases ha with ⟨hk, -⟩ | ⟨ha, -⟩
    · rw [(Prod.mk.inj hk).1]; exact hsome q hq
    · exact hsome a (h.holder _ _ _ ha)
  · intro a g y ha
    rw [hp']
    rcases hcases ha with ⟨hk, hc⟩ | ⟨ha, hne⟩
    · rw [if_pos (Prod.mk.inj hc).1, (Prod.mk.inj hk).1]
    · rw [if_neg (hother ha hne)]; exact h.child _ _ _ ha
  · intro k y hk
    rcases hcases hk with ⟨-, hc⟩ | ⟨hk, hne⟩
    · cases hc
    · rw [hp', if_neg (hother hk hne)]; exact h.leaf _ _ hk
  · intro y a hy hr
    rw [hp'] at hy
    split at hy
    · rename_i hyx
      exact ⟨f, by rw [he', ← Option.some.inj hy, if_pos rfl, hyx]⟩
    rename_i hyx
    obtain ⟨g, hg⟩ := h.named y a hy hr
    have hnew : (a, g) ≠ (q, f) := by
      intro hk
      rw [hk, hfree] at hg
      cases hg
    exact ⟨g, by rw [he', if_neg hnew, if_neg fun ho => hyx (hdrop _ _ _ ho hg)]; exact hg⟩
  · intro k k' y hk hk'
    rcases hcases hk with ⟨h₁, hc⟩ | ⟨h₁, hne⟩ <;> rcases hcases hk' with ⟨h₂, hc'⟩ | ⟨h₂, hne'⟩
    · rw [h₁, h₂]
    · exact absurd (Prod.mk.inj hc).1 (hother h₂ hne')
    · exact absurd (Prod.mk.inj hc').1 (hother h₁ hne)
    · exact h.unique _ _ _ h₁ h₂

lemma addDir (h : N.IsTree root) {p x : ι} {e : ν} (hp : (N.parent p).isSome)
    (hfree : N.entry (p, e) = none) (hx : N.parent x = none) (hunnamed : ∀ k b,
      N.entry k ≠ some (x, b))
    (hp' : ∀ y, N'.parent y = if y = x then some p else N.parent y)
    (he' : ∀ k, N'.entry k = if k = (p, e) then some (x, true) else N.entry k) :
    N'.IsTree root := by
  have hne : ∀ {y : ι}, (N.parent y).isSome → y ≠ x := by
    rintro y hy rfl
    rw [hx] at hy
    cases hy
  have hclimb : ∀ y, (N.parent y).isSome → Forest.Climbs N'.up root y := by
    intro y hy
    refine (h.climbs y hy).congr_on (D := fun z => (N.parent z).isSome) hy ?_ ?_
    · intro z hz hr
      obtain ⟨q, hq⟩ := Option.isSome_iff_exists.mp hz
      rw [up_of_parent hq]
      exact h.parent_isSome hq hr
    · exact fun z hz => by simp [up, hp', hne hz]
  refine h.place none (hne h.root_dir) (fun k b hk => absurd hk (hunnamed k b)) nofun hfree
    hp hp' he' fun y hy => ?_
  rw [hp'] at hy
  split at hy
  · rename_i hyx
    refine .step ?_
    rw [up_of_parent (by rw [hp', if_pos hyx])]
    exact hclimb p hp
  · exact hclimb y hy

lemma dropDir (h : N.IsTree root) {p x : ι} {e : ν} (hentry : N.entry (p, e) = some (x, true))
    (hempty : ∀ f, N.entry (x, f) = none)
    (hp' : ∀ y, N'.parent y = if y = x then none else N.parent y)
    (he' : ∀ k, N'.entry k = if k = (p, e) then none else N.entry k) : N'.IsTree root := by
  have hroot : root ≠ x := fun hr => h.root_unnamed _ _ (hr ▸ hentry)
  have hpx : p ≠ x := fun hpx => h.entry_ne hentry hpx.symm
  have hold : ∀ k c, N'.entry k = some c → N.entry k = some c ∧ k ≠ (p, e) := by
    intro k c hk
    rw [he'] at hk
    split at hk
    · cases hk
    · rename_i hne; exact ⟨hk, hne⟩
  -- nobody is below an empty directory
  have hchildless : ∀ y q, N.parent y = some q → y ≠ root → q ≠ x := by
    rintro y q hy hr rfl
    obtain ⟨f, hf⟩ := h.named y q hy hr
    rw [hempty] at hf
    cases hf
  refine ⟨?_, ?_, ?_, ?_, ?_, ?_, ?_, ?_⟩
  · rw [hp', if_neg hroot]; exact h.root_dir
  · intro k b hk; exact h.root_unnamed _ _ (hold _ _ hk).1
  · intro q f c hq
    have hq' := (hold _ _ hq).1
    have hqx : q ≠ x := by
      rintro rfl
      rw [hempty] at hq'
      cases hq'
    rw [hp', if_neg hqx]; exact h.holder _ _ _ hq'
  · intro q f y hq
    obtain ⟨hq', hne⟩ := hold _ _ hq
    have hyx : y ≠ x := by
      rintro rfl
      exact hne (h.unique _ _ _ hq' hentry)
    rw [hp', if_neg hyx]; exact h.child _ _ _ hq'
  · intro k y hk
    have hk' := (hold _ _ hk).1
    rw [hp']
    split
    · rfl
    · exact h.leaf _ _ hk'
  · intro y q hy hr
    rw [hp'] at hy
    split at hy
    · cases hy
    rename_i hyx
    obtain ⟨f, hf⟩ := h.named y q hy hr
    refine ⟨f, ?_⟩
    rw [he', if_neg ?_]
    · exact hf
    intro hk
    rw [hk, hentry] at hf
    simp only [Option.some.injEq, Prod.mk.injEq, and_true] at hf
    exact hyx hf.symm
  · intro k k' y hk hk'
    exact h.unique _ _ _ (hold _ _ hk).1 (hold _ _ hk').1
  · intro y hy
    rw [hp'] at hy
    split at hy
    · cases hy
    rename_i hyx
    refine (h.climbs y hy).congr_on (D := fun z => (N.parent z).isSome ∧ z ≠ x) ⟨hy, hyx⟩ ?_ ?_
    · rintro z ⟨hz, _⟩ hr
      obtain ⟨q, hq⟩ := Option.isSome_iff_exists.mp hz
      rw [up_of_parent hq]
      exact ⟨h.parent_isSome hq hr, hchildless z q hq hr⟩
    · rintro z ⟨_, hzx⟩
      simp [up, hp', hzx]

/--
A directory moves, with everything below it, to a free name. Below a different
parent that is safe when the new parent is not under the moved directory.
-/
lemma moveDir (h : N.IsTree root) {p q x : ι} {e f : ν}
    (hentry : N.entry (p, e) = some (x, true)) (hfree : N.entry (q, f) = none)
    (hq : (N.parent q).isSome) (hwalk : p ≠ q → Forest.Avoids N.up root x q)
    (hp' : ∀ y, N'.parent y = if y = x then some q else N.parent y)
    (he' : ∀ k, N'.entry k =
      if k = (q, f) then some (x, true) else if k = (p, e) then none else N.entry k) :
    N'.IsTree root := by
  have hx := h.child _ _ _ hentry
  refine h.place (some (p, e)) (fun hr => h.root_unnamed _ _ (hr ▸ hentry)) ?_ ?_ hfree hq hp'
    (fun k => by simp only [he', Option.some.injEq, eq_comm (a := (p, e))]) ?_
  · intro k b hk
    cases b with
    | true => exact congrArg some (h.unique _ _ _ hentry hk)
    | false => exact nomatch hx.symm.trans (h.leaf _ _ hk)
  · rintro _ y b ⟨⟩ hk
    exact (Prod.mk.inj (Option.some.inj (hk.symm.trans hentry))).1
  intro y hy
  have hy : (N.parent y).isSome := by
    rw [hp'] at hy
    split at hy
    · rename_i hyx; simp [hyx, hx]
    · exact hy
  have hup : ∀ z, z ≠ x → N'.up z = N.up z := fun z hz => by simp [up, hp', hz]
  have hupx : N'.up x = q := by simp [up, hp']
  by_cases hpq : p = q
  · -- the parent pointer does not change
    have : N'.up = N.up := by
      funext z
      by_cases hz : z = x
      · rw [hz, hupx, up_of_parent hx, hpq]
      · exact hup z hz
    rw [this]
    exact h.climbs y hy
  · exact (h.climbs y hy).move hup hupx (hwalk hpq)

end Edits

end IsTree

end Dirs
