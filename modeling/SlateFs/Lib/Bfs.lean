import SlateFs.Lib.Worklist

/-!
# Distances by breadth-first search

A queue of nodes with the number of steps taken to them. A node that is taken out of
the queue for the first time is at that distance, and its neighbours go to the end of
the queue, one step further away.

The queue is in order of distance. So when a node is taken out, everything nearer has
been seen before it, and the distance it gets is the length of a shortest path.
-/

namespace Worklist

variable {α : Type}

/-- A path of a given length. -/
inductive Path (next : α → List α) (a : α) : Nat → α → Prop where
  | start : Path next a 0 a
  | step {n : Nat} {x y : α} : Path next a n x → y ∈ next x → Path next a (n + 1) y

/-- The length of a shortest path. -/
def Distance (next : α → List α) (a : α) (n : Nat) (x : α) : Prop :=
  Path next a n x ∧ ∀ k < n, ¬ Path next a k x

variable {next : α → List α} {x : α} {found queue : List (α × Nat)} {d : Nat}

lemma Distance.unique {a : α} {m n : Nat} (hm : Distance next a m x) (hn : Distance next a n x) :
    m = n := by
  rcases Nat.lt_trichotomy m n with h | h | h
  · exact absurd hm.1 (hn.2 m h)
  · exact h
  · exact absurd hn.1 (hm.2 n h)

lemma exists_path_iff {a : α} : (∃ n, Path next a n x) ↔ Reach next (· = a) x := by
  constructor
  · rintro ⟨n, h⟩
    induction h with
    | start => exact .root rfl
    | step _ hy ih => exact .step ih hy
  · intro h
    induction h with
    | root h => exact ⟨0, h ▸ .start⟩
    | step _ hy ih =>
      obtain ⟨n, hn⟩ := ih
      exact ⟨n + 1, .step hn hy⟩

open Classical in
lemma exists_distance_iff {a : α} : (∃ n, Distance next a n x) ↔ Reach next (· = a) x := by
  rw [← exists_path_iff]
  constructor
  · rintro ⟨n, hn⟩
    exact ⟨n, hn.1⟩
  · intro h
    exact ⟨Nat.find h, Nat.find_spec h, fun k hk => Nat.find_min h hk⟩

section

variable [DecidableEq α]

/-- The loop: the distances found so far, newest first, and the queue. -/
def bfs (next : α → List α) : Nat → List (α × Nat) → List (α × Nat) → List (α × Nat)
  | 0, found, _ => found
  | _, found, [] => found
  | n + 1, found, (x, d) :: queue =>
    if x ∈ found.map Prod.fst then bfs next n found queue
    else bfs next n ((x, d) :: found) (queue ++ (next x).map (·, d + 1))

end

variable {next : α → List α} {a : α}

/-- What holds between two turns of the loop. -/
structure Searching (next : α → List α) (a : α) (found queue : List (α × Nat)) : Prop where
  distance : ∀ e ∈ found, Distance next a e.2 e.1
  path : ∀ e ∈ queue, Path next a e.2 e.1
  ordered : queue.Pairwise (fun e f => e.2 ≤ f.2)
  level : ∀ e ∈ queue, ∀ f ∈ queue, f.2 ≤ e.2 + 1
  closed : ∀ e ∈ found, ∀ y ∈ next e.1,
    (∃ d ≤ e.2 + 1, (y, d) ∈ found) ∨ (y, e.2 + 1) ∈ queue
  start : (a, 0) ∈ found ∨ (a, 0) ∈ queue

/-- Everything nearer than the whole queue has been found. -/
lemma Searching.found_of_path (h : Searching next a found queue) (hd : ∀ e ∈ queue, d ≤ e.2)
    {n : Nat} (hn : n < d) (hx : Path next a n x) :
    ∃ k ≤ n, (x, k) ∈ found := by
  induction hx with
  | start =>
    rcases h.start with h | h
    · exact ⟨0, Nat.le_refl 0, h⟩
    have := hd _ h
    omega
  | step hx hy ih =>
    obtain ⟨k, hk, hfound⟩ := ih (by omega)
    rcases h.closed _ hfound _ hy with ⟨j, hj, hyj⟩ | hq
    · exact ⟨j, by simp only at hj; omega, hyj⟩
    have := hd _ hq
    omega

lemma Searching.skip (h : Searching next a found ((x, d) :: queue))
    (hx : x ∈ found.map Prod.fst) :
    Searching next a found queue := by
  obtain ⟨⟨x', k⟩, hfound, rfl⟩ := List.mem_map.mp hx
  have hk : Distance next a k x' := h.distance _ hfound
  have hle : k ≤ d := by
    by_contra hlt
    exact hk.2 d (by omega) (h.path _ List.mem_cons_self)
  refine ⟨h.distance, fun e he => h.path e (List.mem_cons_of_mem _ he),
    (List.pairwise_cons.mp h.ordered).2,
    fun e he f hf => h.level e (List.mem_cons_of_mem _ he) f (List.mem_cons_of_mem _ hf), ?_, ?_⟩
  · intro e he y hy
    rcases h.closed e he y hy with hin | hq
    · exact .inl hin
    rcases List.mem_cons.mp hq with heq | hq
    · cases heq
      exact .inl ⟨k, hle, hfound⟩
    · exact .inr hq
  · rcases h.start with hs | hs
    · exact .inl hs
    rcases List.mem_cons.mp hs with heq | hs
    · cases heq
      obtain rfl : k = 0 := by omega
      exact .inl hfound
    · exact .inr hs

lemma Searching.visit (h : Searching next a found ((x, d) :: queue))
    (hx : x ∉ found.map Prod.fst) :
    Searching next a ((x, d) :: found) (queue ++ (next x).map (·, d + 1)) := by
  have hhead : ∀ e ∈ (x, d) :: queue, d ≤ e.2 := by
    intro e he
    rcases List.mem_cons.mp he with rfl | he
    · exact Nat.le_refl _
    · exact (List.pairwise_cons.mp h.ordered).1 e he
  have hpath : Path next a d x := h.path _ List.mem_cons_self
  -- a shorter path would have been found before
  have hdist : Distance next a d x := by
    refine ⟨hpath, fun k hk hp => ?_⟩
    obtain ⟨j, -, hj⟩ := h.found_of_path hhead hk hp
    exact hx (List.mem_map.mpr ⟨_, hj, rfl⟩)
  have hnew : ∀ e ∈ (next x).map (·, d + 1), e.2 = d + 1 ∧ e.1 ∈ next x := by
    intro e he
    obtain ⟨y, hy, rfl⟩ := List.mem_map.mp he
    exact ⟨rfl, hy⟩
  have hold : ∀ e ∈ queue, d ≤ e.2 ∧ e.2 ≤ d + 1 := fun e he =>
    ⟨hhead e (List.mem_cons_of_mem _ he),
      h.level (x, d) List.mem_cons_self e (List.mem_cons_of_mem _ he)⟩
  constructor
  · intro e he
    rcases List.mem_cons.mp he with rfl | he
    · exact hdist
    · exact h.distance e he
  · intro e he
    rcases List.mem_append.mp he with he | he
    · exact h.path e (List.mem_cons_of_mem _ he)
    obtain ⟨h1, h2⟩ := hnew e he
    rw [h1]
    exact .step hpath h2
  · refine List.pairwise_append.mpr ⟨(List.pairwise_cons.mp h.ordered).2, ?_, ?_⟩
    · exact List.pairwise_map.mpr (List.pairwise_of_forall fun _ _ => Nat.le_refl _)
    intro e he f hf
    have := hold e he
    have := hnew f hf
    omega
  · intro e he f hf
    have hb : ∀ e ∈ queue ++ (next x).map (·, d + 1), d ≤ e.2 ∧ e.2 ≤ d + 1 := by
      intro e he
      rcases List.mem_append.mp he with he | he
      · exact hold e he
      · have := hnew e he
        omega
    have := hb e he
    have := hb f hf
    omega
  · intro e he y hy
    rcases List.mem_cons.mp he with rfl | he
    · exact .inr (List.mem_append_right _ (List.mem_map.mpr ⟨y, hy, rfl⟩))
    rcases h.closed e he y hy with ⟨k, hk, hf⟩ | hq
    · exact .inl ⟨k, hk, List.mem_cons_of_mem _ hf⟩
    rcases List.mem_cons.mp hq with heq | hq
    · refine .inl ⟨d, ?_, ?_⟩
      · rw [(Prod.mk.inj heq).2]
      · rw [(Prod.mk.inj heq).1]
        exact List.mem_cons_self ..
    · exact .inr (List.mem_append_left _ hq)
  · rcases h.start with hs | hs
    · exact .inl (List.mem_cons_of_mem _ hs)
    rcases List.mem_cons.mp hs with heq | hs
    · exact .inl (heq ▸ List.mem_cons_self ..)
    · exact .inr (List.mem_append_left _ hs)

variable [DecidableEq α]

/-- With enough fuel the loop ends with an empty queue. -/
lemma bfs_searching {U : List α} (hU : ∀ x, next x ≠ [] → x ∈ U) (n : Nat) :
    ∀ {found queue : List (α × Nat)}, Searching next a found queue →
      queue.length + todo (fun x => (next x).length) U (found.map Prod.fst) ≤ n →
      Searching next a (bfs next n found queue) [] := by
  induction n with
  | zero =>
    intro found queue h hn
    obtain rfl : queue = [] := List.length_eq_zero_iff.mp (by omega)
    exact h
  | succ n ih =>
    intro found queue h hn
    cases queue with
    | nil => exact h
    | cons e queue =>
      obtain ⟨x, d⟩ := e
      rw [bfs]
      rw [List.length_cons] at hn
      split
      · rename_i hx
        exact ih (h.skip hx) (by omega)
      rename_i hx
      refine ih (h.visit hx) ?_
      rw [List.length_append, List.length_map, List.map_cons]
      by_cases hnil : next x = []
      · have := todo_cons_le (fun x => (next x).length) U x (found.map Prod.fst)
        rw [hnil]
        simp only [List.length_nil]
        omega
      · have := todo_cons (w := fun x => (next x).length) (hU x hnil) hx
        show _ + _ + todo (fun x => (next x).length) U (x :: found.map Prod.fst) ≤ n
        omega

/-- **The search finds the distances of just what is reachable.** -/
theorem mem_bfs {U : List α} (hU : ∀ x, next x ≠ [] → x ∈ U) {n : Nat}
    (hn : 1 + todo (fun x => (next x).length) U [] ≤ n) :
    (x, d) ∈ bfs next n [] [(a, 0)] ↔ Distance next a d x := by
  have hinit : Searching next a [] [(a, 0)] :=
    ⟨nofun, by simpa using Path.start, List.pairwise_singleton .., by simp, nofun,
      .inr (List.mem_singleton_self _)⟩
  have h := bfs_searching hU n hinit (by simpa using hn)
  constructor
  · exact fun hx => h.distance _ hx
  intro hx
  obtain ⟨k, hk, hfound⟩ := h.found_of_path nofun (Nat.lt_succ_self d) hx.1
  have := (h.distance _ hfound).unique hx
  rw [← this]
  exact hfound

end Worklist
