import SlateFs.Version.Verify

/-!
# Versioned paths

A versioned path is written from the root of the volume: a slash before every
component, no empty component and none that is `.` or `..`. Being inside another
path is decided on the text (`path_is_within`) and comes to the same as extending
its list of components.

A commit selects paths. `canonicalize_path_set` keeps the outermost of them: the
list is sorted, so a path comes before everything inside it.
-/

namespace SlateFs.Version

/-- What can stand between two slashes of a versioned path. -/
structure Component (c : List Char) : Prop where
  nonempty : c ≠ []
  slash : '/' ∉ c
  nul : '\x00' ∉ c
  dot : c ≠ ['.']
  dotdot : c ≠ ['.', '.']

/-- The path with the given components. -/
def absolute (components : List (List Char)) : String :=
  String.ofList ('/' :: ['/'].intercalate components)

/-- A path in canonical form. -/
def Canonical (path : String) : Prop :=
  ∃ cs : List (List Char), cs ≠ [] ∧ (∀ c ∈ cs, Component c) ∧ path = absolute cs

/-! ## Components -/

lemma mem_splitOn {x : Char} : ∀ {xs comp : List Char}, comp ∈ xs.splitOn x →
    ∀ c ∈ comp, c ∈ xs ∧ c ≠ x := by
  intro xs
  induction xs with
  | nil =>
    intro comp h
    rw [List.splitOn, List.splitOnP_nil, List.mem_singleton] at h
    subst h
    nofun
  | cons y ys ih =>
    intro comp h c hc
    rw [List.splitOn, List.splitOnP_cons_eq_if_modifyHead, ← List.splitOn] at h
    split at h
    · rcases List.mem_cons.mp h with rfl | h
      · cases hc
      · exact ⟨List.mem_cons_of_mem _ (ih h c hc).1, (ih h c hc).2⟩
    · rename_i hy
      cases hs : ys.splitOn x with
      | nil => exact absurd hs (List.splitOnP_ne_nil _ _)
      | cons first rest =>
        rw [hs, List.modifyHead_cons, List.mem_cons] at h
        rw [hs] at ih
        rcases h with rfl | h
        · rcases List.mem_cons.mp hc with rfl | hc
          · exact ⟨List.mem_cons_self .., by simpa using hy⟩
          · have := ih List.mem_cons_self c hc
            exact ⟨List.mem_cons_of_mem _ this.1, this.2⟩
        · have := ih (List.mem_cons_of_mem _ h) c hc
          exact ⟨List.mem_cons_of_mem _ this.1, this.2⟩

variable {cs ds : List (List Char)} {path p q : String} {paths roots : List String}

lemma pathComponents_absolute (hcs : ∀ c ∈ cs, Component c) :
    pathComponents (absolute cs) = cs := by
  cases cs with
  | nil => decide
  | cons c cs =>
    unfold pathComponents absolute
    rw [String.toList_ofList]
    have hcons : '/' :: ['/'].intercalate (c :: cs) = ['/'].intercalate ([] :: c :: cs) := by
      simp [List.intercalate]
    rw [hcons, List.splitOn_intercalate]
    · rw [List.filter_cons_of_neg (by simp)]
      exact List.filter_eq_self.mpr fun c hc => by simpa using (hcs c hc).nonempty
    · intro c' hc
      rcases List.mem_cons.mp hc with rfl | hc
      · exact List.not_mem_nil
      · exact (hcs c' hc).slash
    · exact List.cons_ne_nil _ _

lemma toList_absolute (hne : cs ≠ []) : (absolute cs).toList = cs.flatMap ('/' :: ·) := by
  unfold absolute
  induction cs with
  | nil => exact absurd rfl hne
  | cons c cs ih =>
    cases cs with
    | nil => simp [List.intercalate]
    | cons d ds =>
      have := ih (List.cons_ne_nil _ _)
      rw [List.flatMap_cons, ← this]
      simp [List.intercalate]

lemma absolute_injective (hcs : ∀ c ∈ cs, Component c) (hds : ∀ d ∈ ds, Component d)
    (h : absolute cs = absolute ds) : cs = ds := by
  rw [← pathComponents_absolute hcs, h, pathComponents_absolute hds]

/-! ## Canonical paths -/

/-- **What `canonical_path` accepts, and what it returns.** -/
theorem canonicalPath_eq_ok {canonical : String} :
    canonicalPath path = .ok canonical ↔ '\x00' ∉ path.toList ∧ pathComponents path ≠ [] ∧
      (∀ c ∈ pathComponents path, c ≠ ['.'] ∧ c ≠ ['.', '.']) ∧
      canonical = absolute (pathComponents path) := by
  unfold canonicalPath
  split
  · rename_i h
    have : '\x00' ∈ path.toList := by simpa using h
    simp [this]
  · rename_i hnul
    split
    · rename_i h
      have : pathComponents path = [] := by simpa using h
      simp [this]
    · rename_i hne
      split
      · rename_i h
        obtain ⟨c, hc, hdot⟩ := List.any_eq_true.mp h
        refine ⟨nofun, fun hall => absurd hdot ?_⟩
        have := hall.2.2.1 c hc
        simp [this]
      · rename_i hdots
        have hn : '\x00' ∉ path.toList := by simpa using hnul
        have hn' : pathComponents path ≠ [] := by simpa using hne
        have hd : ∀ c ∈ pathComponents path, c ≠ ['.'] ∧ c ≠ ['.', '.'] := by
          intro c hc
          have : ¬ (c = ['.'] ∨ c = ['.', '.']) := fun h =>
            hdots (List.any_eq_true.mpr ⟨c, hc, by simpa using h⟩)
          exact not_or.mp this
        constructor
        · intro h
          cases h
          exact ⟨hn, hn', hd, rfl⟩
        · rintro ⟨-, -, -, rfl⟩
          rfl

lemma component_of_mem (hnul : '\x00' ∉ path.toList)
    (hdots : ∀ c ∈ pathComponents path, c ≠ ['.'] ∧ c ≠ ['.', '.']) :
    ∀ c ∈ pathComponents path, Component c := by
  intro c hc
  obtain ⟨hsplit, hnil⟩ := List.mem_filter.mp hc
  exact ⟨by simpa using hnil, fun h => (mem_splitOn hsplit _ h).2 rfl,
    fun h => hnul (mem_splitOn hsplit _ h).1, (hdots c hc).1, (hdots c hc).2⟩

lemma canonical_of_ok {canonical : String} (h : canonicalPath path = .ok canonical) :
    Canonical canonical := by
  obtain ⟨hnul, hne, hdots, rfl⟩ := canonicalPath_eq_ok.mp h
  exact ⟨_, hne, component_of_mem hnul hdots, rfl⟩

lemma Canonical.path_eq (h : Canonical path) : canonicalPath path = .ok path := by
  obtain ⟨cs, hne, hcs, rfl⟩ := h
  rw [canonicalPath_eq_ok, pathComponents_absolute hcs]
  refine ⟨?_, hne, fun c hc => ⟨(hcs c hc).dot, (hcs c hc).dotdot⟩, rfl⟩
  rw [toList_absolute hne, List.mem_flatMap]
  rintro ⟨c, hc, hmem⟩
  rcases List.mem_cons.mp hmem with h | h
  · exact absurd h (by decide)
  · exact (hcs c hc).nul h

lemma Canonical.no_nul (h : Canonical path) : '\x00' ∉ path.toList :=
  (canonicalPath_eq_ok.mp h.path_eq).1

/-- A path is canonical when `canonical_path` leaves it as it is. -/
lemma isCanonical_iff : isCanonical path = true ↔ Canonical path := by
  unfold isCanonical
  constructor
  · intro h
    split at h
    · rename_i canonical hc
      have : canonical = path := by simpa using h
      exact this ▸ canonical_of_ok hc
    · cases h
  · intro h
    rw [h.path_eq]
    simp

lemma Canonical.ne_root (h : Canonical path) : path ≠ "/" := by
  obtain ⟨cs, hne, hcs, rfl⟩ := h
  intro h
  have : absolute cs = absolute [] := h
  exact hne (absolute_injective hcs nofun this)

/-! ## Being inside a path -/

/-- `path_is_within` -/
def pathIsWithin (path root : String) : Bool :=
  root = "/" || path = root || (root.toList ++ ['/']).isPrefixOf path.toList

/-- The first slash in two texts is at the same place. -/
lemma prefix_append_slash {d : List Char} : ∀ {c xs ys : List Char}, '/' ∉ c → '/' ∉ d →
    (∀ y, ys.head? = some y → y = '/') →
    (d ++ '/' :: xs <+: c ++ ys ↔ d = c ∧ '/' :: xs <+: ys) := by
  induction d with
  | nil =>
    intro c xs ys hc _ _
    cases c with
    | nil => simp
    | cons a c =>
      rw [List.mem_cons, not_or] at hc
      simp [List.cons_prefix_cons, hc.1]
  | cons a d ih =>
    intro c xs ys hc hd hys
    rw [List.mem_cons, not_or] at hd
    cases c with
    | nil =>
      refine ⟨fun h => ?_, nofun⟩
      cases ys with
      | nil => simp at h
      | cons y ys =>
        rw [List.cons_append, List.nil_append, List.cons_prefix_cons] at h
        exact absurd (h.1.trans (hys y rfl)).symm hd.1
    | cons b c =>
      rw [List.mem_cons, not_or] at hc
      rw [List.cons_append, List.cons_append, List.cons_prefix_cons, ih hc.2 hd.2 hys,
        List.cons.injEq, and_assoc]

lemma slashed_prefix : ∀ {cs : List (List Char)},
    (∀ c ∈ cs, '/' ∉ c) → (∀ d ∈ ds, '/' ∉ d) →
    (ds.flatMap ('/' :: ·) ++ ['/'] <+: cs.flatMap ('/' :: ·) ↔ ds <+: cs ∧ ds ≠ cs) := by
  induction ds with
  | nil =>
    intro cs _ _
    cases cs with
    | nil => simp
    | cons c cs => simp [List.cons_prefix_cons]
  | cons d ds ih =>
    intro cs hcs hds
    cases cs with
    | nil => simp
    | cons c cs =>
      have hhead : ∀ y, (cs.flatMap ('/' :: ·)).head? = some y → y = '/' := by
        cases cs with
        | nil => nofun
        | cons c' cs => simp
      obtain ⟨xs, hxs⟩ : ∃ xs, ds.flatMap ('/' :: ·) ++ ['/'] = '/' :: xs := by
        cases ds with
        | nil => exact ⟨[], rfl⟩
        | cons d' ds => exact ⟨_, rfl⟩
      rw [List.flatMap_cons, List.flatMap_cons, List.cons_append, List.cons_append,
        List.cons_append, List.cons_prefix_cons, List.append_assoc, hxs,
        prefix_append_slash (hcs c List.mem_cons_self) (hds d List.mem_cons_self) hhead,
        ← hxs, ih (fun c hc => hcs c (List.mem_cons_of_mem _ hc))
          (fun d hd => hds d (List.mem_cons_of_mem _ hd)),
        List.cons_prefix_cons, ne_eq, ne_eq, List.cons.injEq]
      tauto

/-- **Being inside a path is extending its components.** -/
theorem pathIsWithin_absolute (hcs : ∀ c ∈ cs, Component c) (hds : ∀ d ∈ ds, Component d) :
    pathIsWithin (absolute cs) (absolute ds) = true ↔ ds <+: cs := by
  unfold pathIsWithin
  cases ds with
  | nil => simp [show absolute [] = "/" from rfl]
  | cons d ds =>
    have hroot : absolute (d :: ds) ≠ "/" :=
      Canonical.ne_root ⟨_, List.cons_ne_nil _ _, hds, rfl⟩
    rw [Bool.or_eq_true, Bool.or_eq_true, decide_eq_true_eq, decide_eq_true_eq,
      List.isPrefixOf_iff_prefix, toList_absolute (List.cons_ne_nil d ds)]
    cases cs with
    | nil =>
      refine ⟨?_, nofun⟩
      rintro ((h | h) | h)
      · exact absurd h hroot
      · exact absurd h.symm hroot
      · have := h.length_le
        simp [show (absolute []).toList = ['/'] from rfl] at this
    | cons c cs =>
      rw [toList_absolute (List.cons_ne_nil c cs), slashed_prefix (fun c hc => (hcs c hc).slash)
        fun d hd => (hds d hd).slash]
      constructor
      · rintro ((h | h) | h)
        · exact absurd h hroot
        · rw [absolute_injective hcs hds h]
        · exact h.1
      · intro h
        by_cases he : d :: ds = c :: cs
        · exact .inl (.inr (by rw [he]))
        · exact .inr ⟨h, he⟩

lemma pathIsWithin_refl (path : String) : pathIsWithin path path = true := by
  simp [pathIsWithin]

lemma pathIsWithin_iff {root : String} : pathIsWithin path root = true ↔
    root = "/" ∨ path = root ∨ root.toList ++ ['/'] <+: path.toList := by
  unfold pathIsWithin
  rw [Bool.or_eq_true, Bool.or_eq_true, decide_eq_true_eq, decide_eq_true_eq,
    List.isPrefixOf_iff_prefix, or_assoc]

/-- What is inside a canonical path is inside whatever the path is inside. -/
lemma Canonical.within_trans {r : String} (hq : Canonical q) (h : pathIsWithin p q = true)
    (h' : pathIsWithin q r = true) : pathIsWithin p r = true := by
  rw [pathIsWithin_iff] at h h' ⊢
  rcases h with h | rfl | h
  · exact absurd h hq.ne_root
  · exact h'
  rcases h' with h' | rfl | h'
  · exact .inl h'
  · exact .inr (.inr h)
  · exact .inr (.inr (h'.trans ((List.prefix_append ..).trans h)))

lemma Canonical.le_of_within (hq : Canonical q) (h : pathIsWithin p q = true) : q ≤ p := by
  rcases pathIsWithin_iff.mp h with h | h | ⟨rest, h⟩
  · exact absurd h hq.ne_root
  · exact h ▸ le_refl _
  · rw [String.le_iff_toList_le, ← h, List.append_assoc]
    exact not_lt.mp (@List.le_append_left Char _ _ q.toList (['/'] ++ rest))

/-! ## Sets of paths -/

/-- The loop of `canonicalize_path_set`: keep a path unless it is inside one already kept. -/
def keepRoots (roots : List String) : List String → List String
  | [] => roots
  | path :: paths =>
    if roots.any (pathIsWithin path) then keepRoots roots paths
    else keepRoots (roots ++ [path]) paths

/-- `canonicalize_path_set` -/
def canonicalizePathSet (paths : List String) : Except Error (List String) :=
  if paths.isEmpty then .error (.invalid "versioned paths" "provide at least one path")
  else
    match paths.mapM canonicalPath with
    | .error e => .error e
    | .ok canonical => .ok (keepRoots [] (dedup (canonical.mergeSort fun p q => p ≤ q)))

lemma mem_mapM {ε α β : Type} {f : α → Except ε β} {y : β} : ∀ {xs : List α} {ys : List β},
    xs.mapM f = .ok ys → (y ∈ ys ↔ ∃ x ∈ xs, f x = .ok y) := by
  intro xs
  induction xs with
  | nil =>
    intro ys h
    cases h
    simp
  | cons x xs ih =>
    intro ys h
    rw [List.mapM_cons] at h
    simp only [bind_eq_ok, pure, Except.pure, Except.ok.injEq] at h
    obtain ⟨z, hz, zs, hzs, rfl⟩ := h
    rw [List.mem_cons, ih hzs]
    have hhead : y = z ↔ f x = .ok y := by
      rw [hz, Except.ok.injEq]
      exact eq_comm
    simp only [hhead, List.mem_cons, exists_eq_or_imp]

lemma mem_dedup {α : Type} [DecidableEq α] {x : α} : ∀ {xs : List α}, x ∈ dedup xs ↔ x ∈ xs
  | [] => Iff.rfl
  | [_] => Iff.rfl
  | y :: z :: xs => by
    rw [dedup]
    split
    · rename_i h
      rw [mem_dedup, h, List.mem_cons, List.mem_cons, List.mem_cons]
      tauto
    · rw [List.mem_cons, mem_dedup, ← List.mem_cons]

/-- Without repetitions a sorted list is strictly sorted. -/
lemma dedup_strict {α : Type} [LinearOrder α] : ∀ {xs : List α}, xs.Pairwise (· ≤ ·) →
    (dedup xs).Pairwise (· < ·)
  | [], _ => .nil
  | [_], _ => List.pairwise_singleton ..
  | y :: z :: xs, h => by
    rw [List.pairwise_cons] at h
    rw [dedup]
    split
    · exact dedup_strict h.2
    rename_i hne
    refine List.pairwise_cons.mpr ⟨fun x hx => ?_, dedup_strict h.2⟩
    have hz : z ≤ x := by
      rcases List.mem_cons.mp (mem_dedup.mp hx) with rfl | hx
      · exact le_refl _
      · exact (List.pairwise_cons.mp h.2).1 x hx
    exact lt_of_lt_of_le (lt_of_le_of_ne (h.1 z List.mem_cons_self) hne) hz

lemma dedup_sublist {α : Type} [DecidableEq α] : ∀ (xs : List α), (dedup xs).Sublist xs := by
  intro xs
  fun_induction dedup xs with
  | case1 => exact .slnil
  | case2 x => exact .refl _
  | case3 x xs ih => exact .cons _ ih
  | case4 x y xs hne ih => exact .cons_cons _ ih

/-- No two neighbours are equal once a list is without repetition. -/
lemma dedup_isChain {α : Type} [DecidableEq α] : ∀ (xs : List α),
    (dedup xs).head? = xs.head? ∧ (dedup xs).IsChain (· ≠ ·) := by
  intro xs
  fun_induction dedup xs with
  | case1 => exact ⟨rfl, .nil⟩
  | case2 x => exact ⟨rfl, .singleton x⟩
  | case3 x xs ih => exact ih
  | case4 x y xs hne ih =>
    refine ⟨rfl, ?_⟩
    cases hd : dedup (y :: xs) with
    | nil => exact .singleton x
    | cons z zs =>
      rw [hd] at ih
      cases ih.1
      exact .cons_cons hne ih.2

lemma dedup_of_isChain {α : Type} [DecidableEq α] {xs : List α} (h : xs.IsChain (· ≠ ·)) :
    dedup xs = xs := by
  fun_induction dedup xs with
  | case1 => rfl
  | case2 x => rfl
  | case3 x xs ih =>
    cases h with
    | cons_cons hne _ => exact absurd rfl hne
  | case4 x y xs hne ih =>
    cases h with
    | cons_cons _ h => rw [ih h]

/-- The paths of a set that are inside no other path of it. -/
def Outermost (S : String → Prop) (p : String) : Prop :=
  S p ∧ ∀ q, S q → pathIsWithin p q = true → q = p

lemma keepRoots_sublist : ∀ (paths roots : List String),
    (keepRoots roots paths).Sublist (roots ++ paths)
  | [], roots => by simp [keepRoots]
  | path :: paths, roots => by
    rw [keepRoots]
    split
    · exact (keepRoots_sublist paths roots).trans
        ((List.sublist_cons_self path paths).append_left roots)
    · have := keepRoots_sublist paths (roots ++ [path])
      rwa [List.append_assoc] at this

lemma subset_keepRoots : ∀ (paths roots : List String), roots ⊆ keepRoots roots paths
  | [], _ => fun _ h => h
  | path :: paths, roots => by
    rw [keepRoots]
    split
    · exact subset_keepRoots paths roots
    · exact fun q hq => subset_keepRoots paths _ (List.mem_append_left _ hq)

/-- Every path of the list is inside one that is kept. -/
lemma keepRoots_covers : ∀ (paths roots : List String), ∀ p ∈ paths,
    ∃ r ∈ keepRoots roots paths, pathIsWithin p r = true
  | path :: paths, roots, p, hp => by
    rw [keepRoots]
    rcases List.mem_cons.mp hp with rfl | hp
    · split
      · rename_i hin
        obtain ⟨r, hr, hpr⟩ := List.any_eq_true.mp hin
        exact ⟨r, subset_keepRoots _ _ hr, hpr⟩
      · exact ⟨p, subset_keepRoots _ _ (by simp), pathIsWithin_refl p⟩
    · split <;> exact keepRoots_covers paths _ p hp

/-- No path that is kept is inside one that was kept before. -/
lemma keepRoots_apart : ∀ (paths : List String) {roots : List String},
    roots.Pairwise (fun r q => pathIsWithin q r = false) →
    (keepRoots roots paths).Pairwise fun r q => pathIsWithin q r = false
  | [], _, h => h
  | path :: paths, roots, h => by
    rw [keepRoots]
    split
    · exact keepRoots_apart paths h
    rename_i hnot
    refine keepRoots_apart paths (List.pairwise_append.mpr ⟨h, List.pairwise_singleton ..,
      fun r hr q hq => ?_⟩)
    cases List.mem_singleton.mp hq
    by_contra hin
    exact hnot (List.any_eq_true.mpr ⟨r, hr, by simpa using hin⟩)

lemma mem_keepRoots (hc : ∀ p ∈ paths, Canonical p) (hs : paths.Pairwise (· < ·)) :
    q ∈ keepRoots [] paths ↔ q ∈ paths ∧ ∀ r ∈ paths, pathIsWithin q r = true → r = q := by
  have hsub : (keepRoots [] paths).Sublist paths := keepRoots_sublist paths []
  constructor
  · intro hq
    have hmem := hsub.subset hq
    refine ⟨hmem, fun r hr hqr => ?_⟩
    obtain ⟨r', hr', hrr⟩ := keepRoots_covers paths [] r hr
    -- a path comes before what is inside it, so no kept path is inside a later one either
    have hapart : (keepRoots [] paths).Pairwise fun a b =>
        pathIsWithin a b = false ∧ pathIsWithin b a = false := by
      refine ((keepRoots_apart paths .nil).and (hs.sublist hsub)).imp_of_mem
        fun {a b} _ hb h => ⟨?_, h.1⟩
      by_contra hin
      exact not_le.mpr h.2 ((hc b (hsub.subset hb)).le_of_within (by simpa using hin))
    obtain rfl : q = r' := by
      by_contra hne
      have : Std.Symm fun a b => pathIsWithin a b = false ∧ pathIsWithin b a = false :=
        ⟨fun _ _ h => h.symm⟩
      have hout := (hapart.forall hq hr' hne).1
      rw [(hc r hr).within_trans hqr hrr] at hout
      cases hout
    exact le_antisymm ((hc r hr).le_of_within hqr) ((hc q hmem).le_of_within hrr)
  · rintro ⟨hq, hall⟩
    obtain ⟨r, hr, hqr⟩ := keepRoots_covers paths [] q hq
    rwa [hall r (hsub.subset hr) hqr] at hr

/-- A path that one of the given ones spells. -/
def Selected (paths : List String) (q : String) : Prop := ∃ p ∈ paths, canonicalPath p = .ok q

/-- **The selection of a commit**: the outermost of the selected paths, in order. They cover
the others. -/
theorem canonicalizePathSet_spec (h : canonicalizePathSet paths = .ok roots) :
    roots.Pairwise (· < ·) ∧ (∀ q, q ∈ roots ↔ Outermost (Selected paths) q) ∧
      ∀ p, Selected paths p → ∃ r ∈ roots, pathIsWithin p r = true := by
  unfold canonicalizePathSet at h
  split at h
  · cases h
  split at h
  · cases h
  rename_i canonical hmap
  cases h
  have hmem : ∀ q, q ∈ dedup (canonical.mergeSort fun p q => p ≤ q) ↔ Selected paths q := by
    intro q
    rw [mem_dedup, List.mem_mergeSort]
    exact mem_mapM hmap
  have hsorted : (dedup (canonical.mergeSort fun p q => p ≤ q)).Pairwise (· < ·) := by
    refine dedup_strict ?_
    refine (List.pairwise_mergeSort ?_ ?_ canonical).imp fun h => by simpa using h
    · intro a b c hab hbc
      simp only [decide_eq_true_eq] at *
      exact le_trans hab hbc
    · intro a b
      simp only [Bool.or_eq_true, decide_eq_true_eq]
      exact le_total a b
  refine ⟨hsorted.sublist (keepRoots_sublist _ []), fun q => ?_, fun p hp => ?_⟩
  · rw [mem_keepRoots ?_ hsorted]
    · simp only [hmem]
      exact Iff.rfl
    intro p hp
    obtain ⟨p', -, hp'⟩ := (hmem p).mp hp
    exact canonical_of_ok hp'
  · exact keepRoots_covers _ [] p ((hmem p).mpr hp)

lemma Selected.canonical (h : Selected paths q) : Canonical q := by
  obtain ⟨p, -, hp⟩ := h
  exact canonical_of_ok hp

lemma roots_canonical (h : canonicalizePathSet paths = .ok roots) : ∀ r ∈ roots, Canonical r :=
  fun r hr => (((canonicalizePathSet_spec h).2.1 r).mp hr).1.canonical

/-- **The outermost paths cover what was selected.** -/
theorem covered_iff (h : canonicalizePathSet paths = .ok roots) :
    (∃ r ∈ roots, pathIsWithin q r = true) ↔ ∃ p, Selected paths p ∧ pathIsWithin q p = true := by
  constructor
  · rintro ⟨r, hr, hin⟩
    exact ⟨r, (((canonicalizePathSet_spec h).2.1 r).mp hr).1, hin⟩
  · rintro ⟨p, hp, hin⟩
    obtain ⟨r, hr, hpr⟩ := (canonicalizePathSet_spec h).2.2 p hp
    exact ⟨r, hr, hp.canonical.within_trans hin hpr⟩

lemma mapM_ok {ε α β : Type} {f : α → Except ε β} : ∀ {xs : List α},
    (∃ ys, xs.mapM f = .ok ys) ↔ ∀ x ∈ xs, ∃ y, f x = .ok y
  | [] => ⟨fun _ _ hx => (by cases hx), fun _ => ⟨[], rfl⟩⟩
  | x :: xs => by
    rw [List.forall_mem_cons, ← mapM_ok, List.mapM_cons]
    constructor
    · rintro ⟨ys, h⟩
      obtain ⟨y, hy, h⟩ := bind_eq_ok.mp h
      obtain ⟨zs, hzs, -⟩ := bind_eq_ok.mp h
      exact ⟨⟨y, hy⟩, zs, hzs⟩
    · rintro ⟨⟨y, hy⟩, zs, hzs⟩
      exact ⟨y :: zs, bind_eq_ok.mpr ⟨y, hy, bind_eq_ok.mpr ⟨zs, hzs, rfl⟩⟩⟩

lemma canonicalizePathSet_ok_iff :
    (∃ roots, canonicalizePathSet paths = .ok roots) ↔
      paths ≠ [] ∧ ∀ p ∈ paths, ∃ q, canonicalPath p = .ok q := by
  rw [← mapM_ok]
  unfold canonicalizePathSet
  split
  · rename_i h
    have : paths = [] := by simpa using h
    simp [this]
  · rename_i h
    have hne : paths ≠ [] := by simpa using h
    cases hm : paths.mapM canonicalPath with
    | error e => simp
    | ok canonical => simpa using hne

/-- **Order and repetition of the given paths do not matter.** -/
theorem canonicalizePathSet_congr {paths' : List String} (h : canonicalizePathSet paths = .ok roots)
    (hmem : ∀ p, p ∈ paths' ↔ p ∈ paths) :
    canonicalizePathSet paths' = .ok roots := by
  have hsel : ∀ q, Selected paths' q ↔ Selected paths q := fun q => by
    unfold Selected
    simp only [hmem]
  obtain ⟨hne, hall⟩ := canonicalizePathSet_ok_iff.mp ⟨roots, h⟩
  obtain ⟨p, hp⟩ := List.exists_mem_of_ne_nil _ hne
  obtain ⟨roots', h'⟩ := canonicalizePathSet_ok_iff.mpr
    ⟨List.ne_nil_of_mem ((hmem p).mpr hp), fun p hp => hall p ((hmem p).mp hp)⟩
  obtain ⟨hs, hm, -⟩ := canonicalizePathSet_spec h
  obtain ⟨hs', hm', -⟩ := canonicalizePathSet_spec h'
  have hiff : ∀ q, q ∈ roots' ↔ q ∈ roots := fun q => by
    rw [hm', hm]
    unfold Outermost
    simp only [hsel]
  rw [h', List.Perm.eq_of_pairwise (fun a b _ _ hab hba => absurd hab (lt_asymm hba)) hs' hs
    ((List.perm_ext_iff_of_nodup (hs'.imp ne_of_lt) (hs.imp ne_of_lt)).mpr hiff)]

end SlateFs.Version
