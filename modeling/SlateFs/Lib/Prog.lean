import Mathlib.Logic.Basic

/-!
# Programs over a shared store

A call into a server is a sequence of small effects — a point read, a batch
commit, a lock — with ordinary code between them. `Prog` is that sequence as a
tree: each `call` waits for its answer and then goes on with the rest.

Nothing in the tree says how calls are answered, so one program can be run in
several ways: alone (`run`), alone with one call failing (`runFault`), or
interleaved with other programs (`SlateFs.Lib.Threads`). Locks are part of the
tree and mean nothing when a program runs alone.

Loops without a bound of their own take fuel, and a loop that has used it up is
`stuck`: it never returns. A statement about every fuel is a statement about
every terminating execution.
-/

/--
Programs making calls `C`, where call `c` is answered by a value of type `R c`,
and taking locks `L`.
-/
inductive Prog (C : Type) (R : C → Type) (L : Type) (α : Type) where
  /-- The program is done. -/
  | ret (a : α)
  /-- Make a call and go on with its answer. -/
  | call (c : C) (k : R c → Prog C R L α)
  /-- Wait for a lock. -/
  | acquire (l : L) (k : Prog C R L α)
  /-- Give a lock back. -/
  | release (l : L) (k : Prog C R L α)
  /-- The program never returns. -/
  | stuck

namespace Prog

variable {C : Type} {R : C → Type} {L S α β : Type}

/-- Run one program after another. -/
def bind : Prog C R L α → (α → Prog C R L β) → Prog C R L β
  | ret a, f => f a
  | call c k, f => call c (fun r => (k r).bind f)
  | acquire l k, f => acquire l (k.bind f)
  | release l k, f => release l (k.bind f)
  | stuck, _ => stuck

instance : Monad (Prog C R L) where
  pure := ret
  bind := bind

lemma bind_ret_right (p : Prog C R L α) : p.bind ret = p := by
  induction p with
  | ret a => rfl
  | call c k ih => exact congrArg (call c) (funext ih)
  | acquire l k ih => exact congrArg (acquire l) ih
  | release l k ih => exact congrArg (release l) ih
  | stuck => rfl

lemma bind_bind {γ : Type} (p : Prog C R L α) (f : α → Prog C R L β) (g : β → Prog C R L γ) :
    (p.bind f).bind g = p.bind (fun a => (f a).bind g) := by
  induction p with
  | ret a => rfl
  | call c k ih => exact congrArg (call c) (funext ih)
  | acquire l k ih => exact congrArg (acquire l) ih
  | release l k ih => exact congrArg (release l) ih
  | stuck => rfl

instance : LawfulMonad (Prog C R L) :=
  .mk' _ bind_ret_right (fun _ _ => rfl) bind_bind

/-! ## Running alone -/

/-- How each call is answered and what it does to the store. -/
abbrev Handler (C : Type) (R : C → Type) (S : Type) := (c : C) → S → R c × S

/-- Run a program alone. `none` is a program that never returns. -/
def run (h : Handler C R S) : Prog C R L α → S → Option (α × S)
  | ret a, s => some (a, s)
  | call c k, s => run h (k (h c s).1) (h c s).2
  | acquire _ k, s => run h k s
  | release _ k, s => run h k s
  | stuck, _ => none

lemma run_bind (h : Handler C R S) (p : Prog C R L α) (f : α → Prog C R L β) (s : S) :
    run h (p >>= f) s = (run h p s).bind (fun r => run h (f r.1) r.2) := by
  induction p generalizing s with
  | ret a => rfl
  | call c k ih => exact ih _ _
  | acquire l k ih => exact ih s
  | release l k ih => exact ih s
  | stuck => rfl

variable {p : Prog C R L α} {h : Handler C R S}

/-- The states a program passes through when it runs alone, its start included. -/
inductive Visits (h : Handler C R S) : Prog C R L α → S → S → Prop where
  | here (p : Prog C R L α) (s : S) : Visits h p s s
  | call {c : C} {k : R c → Prog C R L α} {s s' : S} :
      Visits h (k (h c s).1) (h c s).2 s' → Visits h (call c k) s s'
  | acquire {l : L} {k : Prog C R L α} {s s' : S} : Visits h k s s' → Visits h (acquire l k) s s'
  | release {l : L} {k : Prog C R L α} {s s' : S} : Visits h k s s' → Visits h (release l k) s s'

/-- A program that returns has passed through the state it left. -/
lemma Visits.of_run {s s' : S} {a : α} (hr : run h p s = some (a, s')) : Visits h p s s' := by
  induction p generalizing s with
  | ret b =>
    rw [run, Option.some.injEq, Prod.mk.injEq] at hr
    rw [← hr.2]; exact .here _ _
  | call c k ih => exact .call (ih _ hr)
  | acquire l k ih => exact .acquire (ih hr)
  | release l k ih => exact .release (ih hr)
  | stuck => exact absurd hr (by simp [run])

/--
What may happen: in state `s` call `c` may be answered `r` and leave `s'`. The
states need not be those a program runs on; they may be anything one wants to keep
track of while it runs.
-/
abbrev Answers (C : Type) (R : C → Type) (S : Type) := (c : C) → S → R c → S → Prop

/-! ## Running among others -/

/--
An execution during which others may do anything: `calls` are the calls the program
made, each with the state it found, and `a` is what it returned. Nothing is said
about how the state found by one call came from the state left by the call before.
-/
inductive Among (A : Answers C R S) : Prog C R L α → List (C × S) → α → Prop where
  | ret (a : α) : Among A (ret a) [] a
  | call {c : C} {k : R c → Prog C R L α} {s s' : S} {r : R c} {calls : List (C × S)} {a : α}
      (h : A c s r s') (hk : Among A (k r) calls a) : Among A (call c k) ((c, s) :: calls) a
  | acquire {l : L} {k : Prog C R L α} {calls : List (C × S)} {a : α} (hk : Among A k calls a) :
      Among A (acquire l k) calls a
  | release {l : L} {k : Prog C R L α} {calls : List (C × S)} {a : α} (hk : Among A k calls a) :
      Among A (release l k) calls a

variable {A : Answers C R S}

lemma Among.of_bind {calls : List (C × S)} {b : β} (h : Among A (p >>= f) calls b) :
    ∃ c₁ c₂ a, Among A p c₁ a ∧ Among A (f a) c₂ b ∧ calls = c₁ ++ c₂ := by
  induction p generalizing calls with
  | ret a => exact ⟨[], calls, a, .ret a, h, rfl⟩
  | call c k ih =>
    cases h with
    | call hc hk =>
      obtain ⟨c₁, c₂, a, h₁, h₂, rfl⟩ := ih _ hk
      exact ⟨_, c₂, a, .call hc h₁, h₂, rfl⟩
  | acquire l k ih =>
    cases h with
    | acquire hk =>
      obtain ⟨c₁, c₂, a, h₁, h₂, rfl⟩ := ih hk
      exact ⟨c₁, c₂, a, .acquire h₁, h₂, rfl⟩
  | release l k ih =>
    cases h with
    | release hk =>
      obtain ⟨c₁, c₂, a, h₁, h₂, rfl⟩ := ih hk
      exact ⟨c₁, c₂, a, .release h₁, h₂, rfl⟩
  | stuck => cases h

/-- A program running alone is one case: its calls find the states it passes through. -/
lemma Among.of_run (hA : ∀ c s, A c s (h c s).1 (h c s).2) {s s' : S} {a : α}
    (hr : run h p s = some (a, s')) :
    ∃ calls, Among A p calls a ∧ ∀ x ∈ calls, Visits h p s x.2 := by
  induction p generalizing s with
  | ret b =>
    rw [run, Option.some.injEq, Prod.mk.injEq] at hr
    rw [← hr.1]
    exact ⟨[], .ret b, fun x hx => absurd hx List.not_mem_nil⟩
  | call c k ih =>
    obtain ⟨calls, hc, hv⟩ := ih _ hr
    refine ⟨(c, s) :: calls, .call (hA c s) hc, fun x hx => ?_⟩
    rcases List.mem_cons.mp hx with rfl | hx
    · exact .here _ _
    · exact .call (hv x hx)
  | acquire l k ih =>
    obtain ⟨calls, hc, hv⟩ := ih hr
    exact ⟨calls, .acquire hc, fun x hx => .acquire (hv x hx)⟩
  | release l k ih =>
    obtain ⟨calls, hc, hv⟩ := ih hr
    exact ⟨calls, .release hc, fun x hx => .release (hv x hx)⟩
  | stuck => exact absurd hr (by simp [run])

/-! ## Weakest preconditions -/

/--
What is kept track of while a program runs: a state of one's own choosing, how calls
and locks move it, and what is asked of every call.
-/
structure Ghost (C : Type) (R : C → Type) (L S : Type) where
  /-- The answers to reckon with, and the state after each. -/
  ans : Answers C R S
  /-- What has to hold whenever a call is answered in one of these ways. -/
  ok : Answers C R S
  acq : L → S → S
  rel : L → S → S
  /-- Whether the program may get stuck. -/
  stuck : Prop

/--
`wp g Q p s`: whatever the calls of `p` are answered, each of them is as `g` asks, the
program gets stuck only if `g` lets it, and if it returns then `Q` holds of what it
returned and the state it left.
-/
def wp (g : Ghost C R L S) (Q : α → S → Prop) : Prog C R L α → S → Prop
  | ret a, s => Q a s
  | call c k, s => ∀ r s', g.ans c s r s' → g.ok c s r s' ∧ wp g Q (k r) s'
  | acquire l k, s => wp g Q k (g.acq l s)
  | release l k, s => wp g Q k (g.rel l s)
  | stuck, _ => g.stuck

variable {g : Ghost C R L S}

lemma wp_bind (Q : β → S → Prop) (p : Prog C R L α) (f : α → Prog C R L β) (s : S) :
    wp g Q (p >>= f) s ↔ wp g (fun a s' => wp g Q (f a) s') p s := by
  induction p generalizing s with
  | ret a => rfl
  | call c k ih =>
    exact forall_congr' fun r => forall_congr' fun s' => imp_congr_right fun _ =>
      and_congr_right fun _ => ih r s'
  | acquire l k ih => exact ih _
  | release l k ih => exact ih _
  | stuck => rfl

lemma wp_mono {ok : Answers C R S} {P Q : α → S → Prop} {s : S} (hw : wp g P p s)
    (hok : ∀ c s r s', g.ok c s r s' → ok c s r s') (hQ : ∀ a s, P a s → Q a s) :
    wp { g with ok := ok } Q p s := by
  induction p generalizing s with
  | ret a => exact hQ _ _ hw
  | call c k ih =>
    intro r s' ha
    obtain ⟨hr, hk⟩ := hw r s' ha
    exact ⟨hok c s r s' hr, ih r hk⟩
  | acquire l k ih => exact ih hw
  | release l k ih => exact ih hw
  | stuck => exact hw

/-- The states of a run and what is kept track of stay related. -/
structure Simulates {S₀ : Type} (h : Handler C R S₀) (g : Ghost C R L S) (V : S₀ → S → Prop) :
    Prop where
  call : ∀ c s t, V s t →
    ∃ t', g.ans c t (h c s).1 t' ∧ (g.ok c t (h c s).1 t' → V (h c s).2 t')
  acquire : ∀ l s t, V s t → V s (g.acq l t)
  release : ∀ l s t, V s t → V s (g.rel l t)

section Simulation

variable {S₀ : Type} {h : Handler C R S₀} {V : S₀ → S → Prop} {Q : α → S → Prop} {s s' : S₀}
  {t : S} (hs : Simulates h g V) (hr : V s t) (hw : wp g Q p t)
include hs hr hw

/-- What a weakest precondition says about the states a run passes through. -/
lemma wp_visits (hv : Visits h p s s') : ∃ t', V s' t' := by
  induction hv generalizing t with
  | here p s => exact ⟨t, hr⟩
  | @call c k s s' _ ih =>
    obtain ⟨t₁, ha, ht⟩ := hs.call c s t hr
    obtain ⟨hok, hk⟩ := hw _ _ ha
    exact ih (ht hok) hk
  | acquire _ ih => exact ih (hs.acquire _ _ _ hr) hw
  | release _ ih => exact ih (hs.release _ _ _ hr) hw

/-- What a weakest precondition says about the result of a run. -/
lemma wp_ends : run h p s = none ∧ g.stuck ∨
    ∃ a s' t', run h p s = some (a, s') ∧ V s' t' ∧ Q a t' := by
  induction p generalizing s t with
  | ret b => exact .inr ⟨b, s, t, rfl, hr, hw⟩
  | call c k ih =>
    obtain ⟨t₁, ha, ht⟩ := hs.call c s t hr
    obtain ⟨hok, hk⟩ := hw _ _ ha
    exact ih _ (ht hok) hk
  | acquire l k ih => exact ih (hs.acquire _ _ _ hr) hw
  | release l k ih => exact ih (hs.release _ _ _ hr) hw
  | stuck => exact .inl ⟨rfl, hw⟩

lemma wp_run {a : α} (hrun : run h p s = some (a, s')) : ∃ t', V s' t' ∧ Q a t' := by
  rcases wp_ends hs hr hw with ⟨hnone, -⟩ | ⟨_, _, t', hend, hpost⟩
  · rw [hnone] at hrun
    cases hrun
  · rw [hrun] at hend
    cases hend
    exact ⟨t', hpost⟩

end Simulation

end Prog
