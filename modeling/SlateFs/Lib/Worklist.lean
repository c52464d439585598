import SlateFs.Lib.OrdMap
import Mathlib.Algebra.Order.BigOperators.Group.List
import Mathlib.Data.List.Basic

/-!
# Searching a graph from a worklist

Two loops that explore a graph and remember what they have seen. `flood` is a
queue whose nodes are marked when they are put in; only some nodes are worth
entering. `walk` is a stack whose nodes are marked when they are taken out, and
expanding a node may fail, which ends the search.

Both are given fuel. `Todo` bounds what is left to do, so with enough fuel the
loops finish, and what they return is exactly the reachable part of the graph.
-/

namespace Worklist

variable {α ε : Type}

/-- What can be reached along `next` from the nodes in `R`. -/
inductive Reach (next : α → List α) (R : α → Prop) : α → Prop where
  | root {x : α} : R x → Reach next R x
  | step {x y : α} : Reach next R x → y ∈ next x → Reach next R y

variable {next : α → List α} {R : α → Prop} {x : α} {expand : α → Except ε (List α)}

/-- A set that holds the roots and is closed under `next` holds all that is reachable. -/
lemma Reach.mem_of_closed {S : α → Prop} (h : Reach next R x) (hR : ∀ y, R y → S y)
    (hS : ∀ y z, S y → z ∈ next y → S z) : S x := by
  induction h with
  | root h => exact hR _ h
  | step _ hy ih => exact hS _ _ ih hy

lemma Reach.mono {next' : α → List α} {R' : α → Prop} (h : Reach next R x) (hR : ∀ y, R y → R' y)
    (hn : ∀ y z, z ∈ next y → z ∈ next' y) : Reach next' R' x :=
  h.mem_of_closed (fun y hy => .root (hR y hy)) (fun _ _ hy hz => .step hy (hn _ _ hz))

/-- The successors of a node; none where it cannot be expanded. -/
def succ (expand : α → Except ε (List α)) (x : α) : List α :=
  match expand x with
  | .error _ => []
  | .ok ys => ys

lemma succ_ok {ys : List α} (h : expand x = .ok ys) : succ expand x = ys := by
  rw [succ, h]

/-- What is reached from a node's successors and the rest of the stack was reached before. -/
lemma reach_expand {y : α} {ys stack : List α} (hx : expand x = .ok ys)
    (h : Reach (succ expand) (· ∈ ys.reverse ++ stack) y) :
    Reach (succ expand) (· ∈ x :: stack) y := by
  refine h.mem_of_closed ?_ (fun _ _ hy hz => .step hy hz)
  intro z hz
  rcases List.mem_append.mp hz with hz | hz
  · refine .step (.root List.mem_cons_self) ?_
    rw [succ_ok hx]
    exact List.mem_reverse.mp hz
  · exact .root (List.mem_cons_of_mem _ hz)

/-- Where expanding a node gives its neighbours, following either is the same as long as
every node met can be expanded. -/
lemma reach_succ (hnext : ∀ x ys, expand x = .ok ys → ys = next x)
    (h : ∀ x, Reach (succ expand) R x → ∃ ys, expand x = .ok ys) :
    Reach (succ expand) R x ↔ Reach next R x := by
  constructor
  · intro hx
    refine hx.mem_of_closed (fun y hy => .root hy) ?_
    intro y z hy hz
    rw [succ] at hz
    split at hz
    · cases hz
    rename_i ys hys
    rw [hnext y ys hys] at hz
    exact .step hy hz
  · intro hx
    refine hx.mem_of_closed (fun y hy => .root hy) ?_
    intro y z hy hz
    obtain ⟨ys, hys⟩ := h y hy
    refine .step hy ?_
    rwa [succ_ok hys, hnext y ys hys]

variable [DecidableEq α]

/-! ## What is left to do -/

/-- The weight of the nodes of `U` that are not yet seen. -/
def todo (w : α → Nat) (U seen : List α) : Nat :=
  (U.map (fun x => if x ∈ seen then 0 else w x)).sum

lemma todo_cons_le (w : α → Nat) (U : List α) (x : α) (seen : List α) :
    todo w U (x :: seen) ≤ todo w U seen := by
  refine List.sum_le_sum ?_
  intro u _
  by_cases hu : u ∈ seen
  · simp [hu]
  · split <;> omega

lemma todo_cons {w : α → Nat} {U seen : List α} (hU : x ∈ U) (hx : x ∉ seen) :
    todo w U (x :: seen) + w x ≤ todo w U seen := by
  induction U with
  | nil => cases hU
  | cons u U ih =>
    have hle := todo_cons_le w U x seen
    unfold todo at ih hle ⊢
    rw [List.map_cons, List.map_cons, List.sum_cons, List.sum_cons]
    by_cases hux : u = x
    · subst hux
      simp only [List.mem_cons_self, if_true, hx, if_false]
      omega
    · have := ih ((List.mem_cons.mp hU).resolve_left fun h => hux h.symm)
      have hu : u ∈ x :: seen ↔ u ∈ seen := by simp [hux]
      rw [if_congr hu rfl rfl]
      omega

/-! ## A queue of nodes marked on the way in -/

/-- Mark the new ones among some nodes and queue those worth entering. -/
def mark (enter : α → Bool) (seen queue : List α) : List α → List α × List α
  | [] => (seen, queue)
  | y :: ys =>
    if y ∈ seen then mark enter seen queue ys
    else mark enter (y :: seen) (if enter y then queue ++ [y] else queue) ys

/-- Breadth-first search: the nodes seen once the queue is empty. -/
def flood (next : α → List α) (enter : α → Bool) : Nat → List α → List α → List α
  | _, seen, [] => seen
  | 0, seen, _ :: _ => seen
  | n + 1, seen, x :: queue =>
    flood next enter n (mark enter seen queue (next x)).1 (mark enter seen queue (next x)).2

section Flood

variable {next : α → List α} {enter : α → Bool}

/-- What marking does: nothing is lost, all the nodes are seen, new nodes worth entering queue. -/
structure Marked (enter : α → Bool) (ys seen queue seen' queue' : List α) : Prop where
  keeps_seen : ∀ x ∈ seen, x ∈ seen'
  keeps_queue : ∀ x ∈ queue, x ∈ queue'
  all : ∀ y ∈ ys, y ∈ seen'
  only : ∀ x ∈ seen', x ∈ seen ∨ x ∈ ys ∧ (enter x = true → x ∈ queue')
  seen_queued : (∀ x ∈ queue, x ∈ seen) → ∀ x ∈ queue', x ∈ seen'

lemma mark_spec (enter : α → Bool) (ys : List α) : ∀ seen queue : List α,
    Marked enter ys seen queue (mark enter seen queue ys).1 (mark enter seen queue ys).2 := by
  induction ys with
  | nil =>
    intro seen queue
    exact ⟨fun _ h => h, fun _ h => h, nofun, fun _ h => .inl h, fun h => h⟩
  | cons y ys ih =>
    intro seen queue
    rw [mark]
    split
    · rename_i hy
      obtain ⟨h1, h2, h3, h4, h5⟩ := ih seen queue
      refine ⟨h1, h2, ?_, ?_, h5⟩
      · intro z hz
        rcases List.mem_cons.mp hz with rfl | hz
        · exact h1 _ hy
        · exact h3 _ hz
      · intro x hx
        exact (h4 x hx).imp_right fun h => ⟨List.mem_cons_of_mem _ h.1, h.2⟩
    · rename_i hy
      obtain ⟨h1, h2, h3, h4, h5⟩ := ih (y :: seen) (if enter y then queue ++ [y] else queue)
      have hq : ∀ x ∈ queue, x ∈ if enter y then queue ++ [y] else queue := by
        intro x hx
        split
        · exact List.mem_append_left _ hx
        · exact hx
      refine ⟨fun x hx => h1 _ (List.mem_cons_of_mem _ hx), fun x hx => h2 _ (hq x hx), ?_, ?_, ?_⟩
      · intro z hz
        rcases List.mem_cons.mp hz with rfl | hz
        · exact h1 _ List.mem_cons_self
        · exact h3 _ hz
      · intro x hx
        rcases h4 x hx with h | h
        · rcases List.mem_cons.mp h with rfl | h
          · refine .inr ⟨List.mem_cons_self .., fun he => h2 _ ?_⟩
            simp [he]
          · exact .inl h
        · exact .inr ⟨List.mem_cons_of_mem _ h.1, h.2⟩
      · intro hall
        refine h5 ?_
        intro x hx
        split at hx
        · rcases List.mem_append.mp hx with hx | hx
          · exact List.mem_cons_of_mem _ (hall x hx)
          · rw [List.mem_singleton.mp hx]
            exact List.mem_cons_self ..
        · exact List.mem_cons_of_mem _ (hall x hx)

/-- **Only reachable nodes are seen.** -/
theorem flood_sound {R : α → Prop} (n : Nat) : ∀ seen queue : List α,
    (∀ x ∈ seen, Reach next R x) → (∀ x ∈ queue, x ∈ seen) →
      ∀ x ∈ flood next enter n seen queue, Reach next R x := by
  induction n with
  | zero => intro seen queue hs _ x hx; cases queue <;> exact hs x hx
  | succ n ih =>
    intro seen queue hs hq x hx
    cases queue with
    | nil => exact hs x hx
    | cons y queue =>
      have hm := mark_spec enter (next y) seen queue
      refine ih _ _ ?_ (hm.seen_queued fun z hz => hq z (List.mem_cons_of_mem _ hz)) x hx
      intro z hz
      rcases hm.only z hz with h | h
      · exact hs z h
      · exact .step (hs y (hq y List.mem_cons_self)) h.1

end Flood

/-! ## A stack of nodes marked on the way out -/

/-- Depth-first search: the nodes seen once the stack is empty, last seen first. A node that
cannot be expanded ends the search. -/
def walk (expand : α → Except ε (List α)) : Nat → List α → List α → Except ε (List α)
  | _, seen, [] => .ok seen
  | 0, seen, _ :: _ => .ok seen
  | n + 1, seen, x :: stack =>
    if x ∈ seen then walk expand n seen stack
    else
      match expand x with
      | .error e => .error e
      | .ok ys => walk expand n (x :: seen) (ys.reverse ++ stack)

section Walk

variable {expand : α → Except ε (List α)}

/-- **Only reachable nodes are seen.** -/
theorem walk_sound (n : Nat) : ∀ {seen stack out : List α},
    walk expand n seen stack = .ok out →
      ∀ y ∈ out, y ∈ seen ∨ Reach (succ expand) (· ∈ stack) y := by
  induction n with
  | zero =>
    intro seen stack out h y hy
    cases stack <;> (cases h; exact .inl hy)
  | succ n ih =>
    intro seen stack out h y hy
    cases stack with
    | nil => cases h; exact .inl hy
    | cons x stack =>
      rw [walk] at h
      split at h
      · exact (ih h y hy).imp_right fun hr =>
          hr.mono (fun _ hz => List.mem_cons_of_mem _ hz) (fun _ _ hz => hz)
      split at h
      · cases h
      rename_i ys hys
      rcases ih h y hy with hs | hr
      · rcases List.mem_cons.mp hs with rfl | hs
        · exact .inr (.root List.mem_cons_self)
        · exact .inl hs
      · exact .inr (reach_expand hys hr)

/-- A search that fails has reached a node that cannot be expanded. -/
lemma walk_error (n : Nat) : ∀ {seen stack : List α} {e : ε},
    walk expand n seen stack = .error e →
      ∃ y, Reach (succ expand) (· ∈ stack) y ∧ expand y = .error e := by
  induction n with
  | zero => intro seen stack e h; cases stack <;> cases h
  | succ n ih =>
    intro seen stack e h
    cases stack with
    | nil => cases h
    | cons x stack =>
      rw [walk] at h
      split at h
      · obtain ⟨y, hy, he⟩ := ih h
        exact ⟨y, hy.mono (fun _ hz => List.mem_cons_of_mem _ hz) (fun _ _ hz => hz), he⟩
      split at h
      · rename_i e' he
        cases h
        exact ⟨x, .root List.mem_cons_self, he⟩
      · rename_i ys hys
        obtain ⟨y, hy, he⟩ := ih h
        exact ⟨y, reach_expand hys hy, he⟩

/-- **Nothing is missed**: given fuel, the stack runs empty, and each new node has its
successors seen. -/
theorem walk_closed {U : List α} (hU : ∀ x, succ expand x ≠ [] → x ∈ U) (n : Nat) :
    ∀ {seen stack out : List α},
      stack.length + todo (fun x => (succ expand x).length) U seen ≤ n →
      walk expand n seen stack = .ok out →
      (∀ x ∈ seen, x ∈ out) ∧ (∀ x ∈ stack, x ∈ out) ∧
        ∀ x ∈ out, x ∈ seen ∨ ∃ ys, expand x = .ok ys ∧ ∀ y ∈ ys, y ∈ out := by
  induction n with
  | zero =>
    intro seen stack out hn h
    obtain rfl : stack = [] := List.length_eq_zero_iff.mp (by omega)
    cases h
    exact ⟨fun _ hx => hx, nofun, fun _ hx => .inl hx⟩
  | succ n ih =>
    intro seen stack out hn h
    cases stack with
    | nil =>
      cases h
      exact ⟨fun _ hx => hx, nofun, fun _ hx => .inl hx⟩
    | cons x stack =>
      rw [List.length_cons] at hn
      rw [walk] at h
      split at h
      · rename_i hx
        obtain ⟨h1, h2, h3⟩ := ih (by omega) h
        refine ⟨h1, ?_, h3⟩
        intro z hz
        rcases List.mem_cons.mp hz with rfl | hz
        · exact h1 _ hx
        · exact h2 _ hz
      · rename_i hx
        split at h
        · cases h
        rename_i ys hys
        -- a new node pays for its successors out of what was left to do
        have hpay : ys.length + todo (fun x => (succ expand x).length) U (x :: seen)
            ≤ todo (fun x => (succ expand x).length) U seen := by
          cases ys with
          | nil =>
            have := todo_cons_le (fun x => (succ expand x).length) U x seen
            simp only [List.length_nil]
            omega
          | cons y ys =>
            have hne : succ expand x ≠ [] := by
              rw [succ_ok hys]
              exact List.cons_ne_nil _ _
            have := todo_cons (w := fun x => (succ expand x).length) (hU x hne) hx
            rw [succ_ok hys] at this
            omega
        have hlen : (ys.reverse ++ stack).length = ys.length + stack.length := by simp
        obtain ⟨h1, h2, h3⟩ := ih (by omega) h
        refine ⟨fun z hz => h1 z (List.mem_cons_of_mem _ hz), ?_, ?_⟩
        · intro z hz
          rcases List.mem_cons.mp hz with rfl | hz
          · exact h1 _ List.mem_cons_self
          · exact h2 z (List.mem_append_right _ hz)
        · intro z hz
          rcases h3 z hz with hs | hs
          · rcases List.mem_cons.mp hs with rfl | hs
            · refine .inr ⟨ys, hys, fun y hy => h2 y ?_⟩
              exact List.mem_append_left _ (List.mem_reverse.mpr hy)
            · exact .inl hs
          · exact .inr hs

/-- A search from nothing returns just what is reachable, all of which can be expanded. -/
lemma walk_ok {U : List α} (hU : ∀ x, succ expand x ≠ [] → x ∈ U) {n : Nat}
    {stack out : List α} (hn : stack.length + todo (fun x => (succ expand x).length) U [] ≤ n)
    (h : walk expand n [] stack = .ok out) :
    ∀ x, (x ∈ out ↔ Reach (succ expand) (· ∈ stack) x) ∧ (x ∈ out → ∃ ys, expand x = .ok ys) := by
  obtain ⟨-, hstack, hclosed⟩ := walk_closed hU n hn h
  intro x
  refine ⟨⟨fun hx => (walk_sound n h x hx).resolve_left nofun, ?_⟩, ?_⟩
  · intro hx
    refine hx.mem_of_closed hstack ?_
    intro y z hy hz
    obtain ⟨ys, hys, hall⟩ := (hclosed y hy).resolve_left nofun
    rw [succ_ok hys] at hz
    exact hall z hz
  · intro hx
    obtain ⟨ys, hys, -⟩ := (hclosed x hx).resolve_left nofun
    exact ⟨ys, hys⟩

/-- A search succeeds where every reachable node can be expanded. -/
lemma walk_succeeds {n : Nat} {seen stack : List α}
    (h : ∀ x, Reach (succ expand) (· ∈ stack) x → ∃ ys, expand x = .ok ys) :
    ∃ out, walk expand n seen stack = .ok out := by
  cases hw : walk expand n seen stack with
  | ok out => exact ⟨out, rfl⟩
  | error e =>
    obtain ⟨y, hy, he⟩ := walk_error n hw
    obtain ⟨ys, hys⟩ := h y hy
    rw [he] at hys
    cases hys

end Walk

/-! ## Graphs kept in an ordered map -/

section Stored

variable {κ β : Type} [LinearOrder κ]

/-- The neighbours of a key: what its record refers to, nothing where there is none. -/
def follow (m : OrdMap κ β) (refs : β → List κ) (x : κ) : List κ :=
  match m.get? x with
  | none => []
  | some v => refs v

lemma mem_follow {m : OrdMap κ β} {refs : β → List κ} {x y : κ} :
    y ∈ follow m refs x ↔ ∃ v, m.get? x = some v ∧ y ∈ refs v := by
  unfold follow
  cases m.get? x <;> simp

/-- Enough steps for any search over the records from `stack`. -/
def fuel (m : OrdMap κ β) (refs : β → List κ) (stack : List κ) : Nat :=
  stack.length + (m.entries.map (fun e => (refs e.2).length)).sum

/-- Search the records from `stack`. -/
def search (m : OrdMap κ β) (refs : β → List κ) (expand : κ → Except ε (List κ))
    (stack : List κ) : Except ε (List κ) :=
  walk expand (fuel m refs stack) [] stack

variable {m : OrdMap κ β} {refs : β → List κ} {expand : κ → Except ε (List κ)}

/-- Only keys with a record have neighbours, and their references pay for the search. -/
lemma fuel_spec (hx : ∀ x ys, expand x = .ok ys → ys = follow m refs x) (stack : List κ) :
    (∀ x, succ expand x ≠ [] → x ∈ m.entries.map Prod.fst) ∧
      stack.length + todo (fun x => (succ expand x).length) (m.entries.map Prod.fst) []
        ≤ fuel m refs stack := by
  have hsub : ∀ x, succ expand x = [] ∨ succ expand x = follow m refs x := by
    intro x
    rw [succ]
    split
    · exact .inl rfl
    · rename_i ys hys
      exact .inr (hx x ys hys)
  constructor
  · intro x hne
    have hne' : follow m refs x ≠ [] := by
      rcases hsub x with h | h
      · exact absurd h hne
      · rwa [← h]
    rw [follow] at hne'
    split at hne'
    · exact absurd rfl hne'
    · rename_i v hv
      exact List.mem_map.mpr ⟨(x, v), OrdMap.mem_entries.mpr hv, rfl⟩
  · unfold todo fuel
    rw [List.map_map]
    have : (m.entries.map ((fun x => if x ∈ [] then 0 else (succ expand x).length) ∘ Prod.fst)).sum
        ≤ (m.entries.map (fun e => (refs e.2).length)).sum := by
      refine List.sum_le_sum ?_
      intro e he
      have hget : m.get? e.1 = some e.2 := OrdMap.mem_entries.mp he
      have hf : follow m refs e.1 = refs e.2 := by rw [follow, hget]
      show (if e.1 ∈ [] then 0 else (succ expand e.1).length) ≤ (refs e.2).length
      rw [if_neg List.not_mem_nil]
      rcases hsub e.1 with h | h
      · rw [h]
        exact Nat.zero_le _
      · rw [h, hf]
    exact Nat.add_le_add_left this _

/-- **A search succeeds just when all that is reachable can be expanded.** -/
theorem search_ok_iff (hx : ∀ x ys, expand x = .ok ys → ys = follow m refs x) {stack : List κ} :
    (∃ out, search m refs expand stack = .ok out) ↔
      ∀ x, Reach (follow m refs) (· ∈ stack) x → ∃ ys, expand x = .ok ys := by
  obtain ⟨hU, hfuel⟩ := fuel_spec hx stack
  constructor
  · rintro ⟨out, h⟩
    have hall : ∀ x, Reach (succ expand) (· ∈ stack) x → ∃ ys, expand x = .ok ys :=
      fun x hr => (walk_ok hU hfuel h x).2 ((walk_ok hU hfuel h x).1.mpr hr)
    exact fun x hr => hall x ((reach_succ hx hall).mpr hr)
  · intro h
    refine walk_succeeds ?_
    intro x hr
    refine h x (hr.mem_of_closed (fun y hy => .root hy) ?_)
    intro y z hy hz
    rw [succ] at hz
    split at hz
    · cases hz
    rename_i ys hys
    rw [hx y ys hys] at hz
    exact .step hy hz

/-- **A search returns just what is reachable.** -/
theorem mem_search (hx : ∀ x ys, expand x = .ok ys → ys = follow m refs x) {stack out : List κ}
    (h : search m refs expand stack = .ok out) {x : κ} :
    x ∈ out ↔ Reach (follow m refs) (· ∈ stack) x := by
  obtain ⟨hU, hfuel⟩ := fuel_spec hx stack
  have hall : ∀ x, Reach (succ expand) (· ∈ stack) x → ∃ ys, expand x = .ok ys :=
    fun x hr => (walk_ok hU hfuel h x).2 ((walk_ok hU hfuel h x).1.mpr hr)
  rw [(walk_ok hU hfuel h x).1, reach_succ hx hall]

/-- Everything reachable from some keys, the keys themselves included: they are marked from the
start, and the search begins at their references. -/
def closure (m : OrdMap κ β) (refs : β → List κ) (seen : List κ) : List κ :=
  let stack := (seen.flatMap (follow m refs)).reverse
  match walk (fun x => (.ok (follow m refs x) : Except Unit (List κ))) (fuel m refs stack) seen
    stack with
  | .ok out => out
  | .error _ => seen

lemma todo_le (w : κ → Nat) (U seen : List κ) : todo w U seen ≤ todo w U [] := by
  refine List.sum_le_sum ?_
  intro u _
  rw [if_neg List.not_mem_nil]
  split <;> omega

lemma mem_closure {seen : List κ} {x : κ} :
    x ∈ closure m refs seen ↔ Reach (follow m refs) (· ∈ seen) x := by
  have hx : ∀ x ys, (.ok (follow m refs x) : Except Unit (List κ)) = .ok ys →
      ys = follow m refs x :=
    fun x ys h => (Except.ok.inj h).symm
  unfold closure
  simp only
  split
  · rename_i out hout
    obtain ⟨hU, hfuel⟩ := fuel_spec hx (seen.flatMap (follow m refs)).reverse
    have hle := todo_le
      (fun x => (succ (fun x => (.ok (follow m refs x) : Except Unit _)) x).length)
      (m.entries.map Prod.fst) seen
    obtain ⟨h1, h2, h3⟩ := walk_closed hU _ (by omega) hout
    constructor
    · intro hin
      rcases walk_sound _ hout x hin with h | h
      · exact .root h
      refine h.mem_of_closed ?_ (fun _ _ hy hz => .step hy hz)
      intro y hy
      obtain ⟨z, hz, hy⟩ := List.mem_flatMap.mp (List.mem_reverse.mp hy)
      exact .step (.root hz) hy
    · intro hr
      refine hr.mem_of_closed h1 ?_
      intro y z hy hz
      rcases h3 y hy with hs | ⟨ys, hys, hall⟩
      · exact h2 z (List.mem_reverse.mpr (List.mem_flatMap.mpr ⟨y, hs, hz⟩))
      · rw [hx y ys hys] at hall
        exact hall z hz
  · rename_i e he
    obtain ⟨y, -, hy⟩ := walk_error _ he
    cases hy

end Stored

end Worklist
