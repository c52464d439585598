import Mathlib.Logic.Function.Basic
import Mathlib.Logic.Relation
import SlateFs.Lib.OrdMap
import SlateFs.Lib.Prog

/-!
# Programs running side by side

Any number of tasks run programs over one shared state. A task moves one call at a
time, so others can come in between any two calls and never in the middle of one; a
lock is taken only when nobody holds it. `Setting` collects what differs from one
setting to the next: which programs are started, how calls are answered, when a task
may make a call, and what a crash leaves.

`Outline` is the way to prove an invariant. Every task carries a ghost state of its
own, moved by its own calls only, and the programs have been shown to behave in terms
of it (`Prog.wp`); what is left to show is that one move of one task keeps the relation
between the shared state and all ghost states.
-/

namespace Threads

open Function

/-- A task: what is left of its program, the locks it holds, and notes taken on the way. -/
structure Task (C : Type) (R : C → Type) (L α N : Type) where
  prog : Prog C R L α
  held : List L
  notes : N

/-- The shared state and the tasks that are running. -/
structure Conf (C : Type) (R : C → Type) (L S α N : Type) where
  st : S
  tasks : OrdMap Nat (Task C R L α N)

/-- A setting in which programs run. -/
structure Setting (C : Type) (R : C → Type) (L S α N : Type) where
  /-- The programs a task may begin with. -/
  starts : S → Prog C R L α → Prop
  answers : Prog.Answers C R S
  /-- When a task may make a call. -/
  allows : Conf C R L S α N → Nat → C → Prop
  /-- What a crash may leave of the shared state. All tasks are gone. -/
  crash : S → S → Prop
  /-- The notes of a task that has just begun. -/
  blank : N
  note : (c : C) → R c → N → N

variable {C : Type} {R : C → Type} {L S α N : Type}

/-- No task holds the lock. -/
def Conf.Free (c : Conf C R L S α N) (l : L) : Prop :=
  ∀ u τ, c.tasks.get? u = some τ → l ∉ τ.held

namespace Setting

variable [DecidableEq L] {Y : Setting C R L S α N}

/-- One move. -/
inductive Step (Y : Setting C R L S α N) : Conf C R L S α N → Conf C R L S α N → Prop where
  | start {c : Conf C R L S α N} {t : Nat} {p : Prog C R L α} (hidle : c.tasks.get? t = none)
      (hp : Y.starts c.st p) : Step Y c ⟨c.st, c.tasks.insert t ⟨p, [], Y.blank⟩⟩
  | call {c : Conf C R L S α N} {t : Nat} {x : C} {k : R x → Prog C R L α} {held : List L} {n : N}
      {r : R x} {s' : S} (ht : c.tasks.get? t = some ⟨.call x k, held, n⟩)
      (hallow : Y.allows c t x) (ha : Y.answers x c.st r s') :
      Step Y c ⟨s', c.tasks.insert t ⟨k r, held, Y.note x r n⟩⟩
  | acquire {c : Conf C R L S α N} {t : Nat} {l : L} {k : Prog C R L α} {held : List L} {n : N}
      (ht : c.tasks.get? t = some ⟨.acquire l k, held, n⟩) (hfree : c.Free l) :
      Step Y c ⟨c.st, c.tasks.insert t ⟨k, l :: held, n⟩⟩
  | release {c : Conf C R L S α N} {t : Nat} {l : L} {k : Prog C R L α} {held : List L} {n : N}
      (ht : c.tasks.get? t = some ⟨.release l k, held, n⟩) :
      Step Y c ⟨c.st, c.tasks.insert t ⟨k, held.erase l, n⟩⟩
  | finish {c : Conf C R L S α N} {t : Nat} {a : α} {held : List L} {n : N}
      (ht : c.tasks.get? t = some ⟨.ret a, held, n⟩) : Step Y c ⟨c.st, c.tasks.erase t⟩
  | crash {c : Conf C R L S α N} {s' : S} (h : Y.crash c.st s') : Step Y c ⟨s', ∅⟩

/-- What can come of a shared state on which nothing runs. -/
def Reached (Y : Setting C R L S α N) (s₀ : S) (c : Conf C R L S α N) : Prop :=
  Relation.ReflTransGen Y.Step ⟨s₀, ∅⟩ c

/-! ## Invariants -/

/--
How to prove an invariant `J` of the shared state and the tasks' ghost states, when
every program has been shown to end in `Q` from the ghost state `γ₀`.
-/
structure Outline {Γ : Type} (Y : Setting C R L S α N) (g : Prog.Ghost C R L Γ) (γ₀ : Γ)
    (Q : α → Γ → Prop) (J : Conf C R L S α N → (Nat → Γ) → Prop) : Prop where
  prog : ∀ s p, Y.starts s p → Prog.wp g Q p γ₀
  start : ∀ {c γ t p}, J c γ → c.tasks.get? t = none → Y.starts c.st p →
    J ⟨c.st, c.tasks.insert t ⟨p, [], Y.blank⟩⟩ (Function.update γ t γ₀)
  call : ∀ {c γ t x k held n r s'}, J c γ → c.tasks.get? t = some ⟨.call x k, held, n⟩ →
    Y.allows c t x → Y.answers x c.st r s' → ∃ γ', g.ans x (γ t) r γ' ∧
      (g.ok x (γ t) r γ' →
        J ⟨s', c.tasks.insert t ⟨k r, held, Y.note x r n⟩⟩ (Function.update γ t γ'))
  acquire : ∀ {c γ t l k held n}, J c γ → c.tasks.get? t = some ⟨.acquire l k, held, n⟩ →
    c.Free l →
    J ⟨c.st, c.tasks.insert t ⟨k, l :: held, n⟩⟩ (Function.update γ t (g.acq l (γ t)))
  release : ∀ {c γ t l k held n}, J c γ → c.tasks.get? t = some ⟨.release l k, held, n⟩ →
    J ⟨c.st, c.tasks.insert t ⟨k, held.erase l, n⟩⟩ (Function.update γ t (g.rel l (γ t)))
  finish : ∀ {c γ t a held n}, J c γ → c.tasks.get? t = some ⟨.ret a, held, n⟩ → Q a (γ t) →
    J ⟨c.st, c.tasks.erase t⟩ γ
  crash : ∀ {c γ s'}, J c γ → Y.crash c.st s' → J ⟨s', ∅⟩ γ

/-- Every running program is still one that behaves in terms of its ghost state. -/
def Behaves {Γ : Type} (g : Prog.Ghost C R L Γ) (Q : α → Γ → Prop) (c : Conf C R L S α N)
    (γ : Nat → Γ) : Prop :=
  ∀ t τ, c.tasks.get? t = some τ → Prog.wp g Q τ.prog (γ t)

section

variable {Γ : Type} {g : Prog.Ghost C R L Γ} {γ₀ : Γ} {Q : α → Γ → Prop}
  {J : Conf C R L S α N → (Nat → Γ) → Prop} {c c' : Conf C R L S α N} {γ : Nat → Γ}

omit [DecidableEq L] in
lemma Behaves.insert (h : Behaves g Q c γ) {t : Nat} {τ : Task C R L α N} {γ' : Γ} {s' : S}
    (hτ : Prog.wp g Q τ.prog γ') :
    Behaves g Q (⟨s', c.tasks.insert t τ⟩ : Conf C R L S α N) (update γ t γ') := by
  intro u σ hu
  rw [OrdMap.get?_insert] at hu
  split at hu
  · rename_i he
    rw [he, update_self, ← Option.some.inj hu]
    exact hτ
  · rename_i hne
    rw [update_of_ne hne]
    exact h u σ hu

omit [DecidableEq L] in
lemma Behaves.erase (h : Behaves g Q c γ) (t : Nat) :
    Behaves g Q (⟨c.st, c.tasks.erase t⟩ : Conf C R L S α N) γ := by
  intro u σ hu
  rw [OrdMap.get?_erase] at hu
  split at hu
  · cases hu
  · exact h u σ hu

lemma Outline.step (O : Outline Y g γ₀ Q J) (hJ : J c γ) (hb : Behaves g Q c γ)
    (hs : Y.Step c c') : ∃ γ', J c' γ' ∧ Behaves g Q c' γ' := by
  cases hs with
  | start hidle hp => exact ⟨_, O.start hJ hidle hp, hb.insert (O.prog _ _ hp)⟩
  | call ht hallow ha =>
    obtain ⟨γ', hans, hJ'⟩ := O.call hJ ht hallow ha
    obtain ⟨hok, hk⟩ := hb _ _ ht _ _ hans
    exact ⟨_, hJ' hok, hb.insert hk⟩
  | acquire ht hfree => exact ⟨_, O.acquire hJ ht hfree, hb.insert (hb _ _ ht)⟩
  | release ht => exact ⟨_, O.release hJ ht, hb.insert (hb _ _ ht)⟩
  | finish ht => exact ⟨γ, O.finish hJ ht (hb _ _ ht), hb.erase _⟩
  | crash h => exact ⟨γ, O.crash hJ h, fun _ _ h => nomatch h⟩

/-- **An outline that starts well holds in everything that can be reached.** -/
theorem Outline.reached (O : Outline Y g γ₀ Q J) {s₀ : S} (h0 : J ⟨s₀, ∅⟩ γ)
    (hr : Y.Reached s₀ c) : ∃ γ', J c γ' ∧ Behaves g Q c γ' := by
  induction hr with
  | refl => exact ⟨γ, h0, fun _ _ h => nomatch h⟩
  | tail _ hs ih =>
    obtain ⟨γ', hJ, hb⟩ := ih
    exact O.step hJ hb hs

end

/-! ## Computed runs -/

/-- One move of a computed run. -/
inductive Move (C : Type) (R : C → Type) (L S α : Type) where
  | start (t : Nat) (p : Prog C R L α)
  /-- The task goes on; a call is answered. -/
  | step (t : Nat)
  /-- The task's call fails. -/
  | fail (t : Nat)
  | crash (f : S → Option S)

/-- How a computed run answers calls and lets them fail, and which calls it lets through. -/
structure Driver (Y : Setting C R L S α N) where
  handler : Prog.Handler C R S
  failure : (c : C) → Option (R c)
  admits : Conf C R L S α N → Nat → C → Bool
  answers : ∀ c s, Y.answers c s (handler c s).1 (handler c s).2
  fails : ∀ c s r, failure c = some r → Y.answers c s r s
  allows : ∀ c t x, admits c t x = true → Y.allows c t x

variable (D : Driver Y)

def freeb (c : Conf C R L S α N) (l : L) : Bool := c.tasks.entries.all (fun e => l ∉ e.2.held)

lemma free_of_freeb {c : Conf C R L S α N} {l : L} (h : freeb c l = true) : c.Free l := by
  intro u τ hu
  have := List.all_eq_true.mp h _ (OrdMap.mem_entries.mpr hu)
  simpa using this

/-- Let a task make its next move. -/
def advance (c : Conf C R L S α N) (t : Nat) (failing : Bool) :
    Task C R L α N → Option (Conf C R L S α N)
  | ⟨.ret _, _, _⟩ => some ⟨c.st, c.tasks.erase t⟩
  | ⟨.call x k, held, n⟩ =>
    if D.admits c t x then
      if failing then
        (D.failure x).map (fun r => ⟨c.st, c.tasks.insert t ⟨k r, held, Y.note x r n⟩⟩)
      else
        let a := D.handler x c.st
        some ⟨a.2, c.tasks.insert t ⟨k a.1, held, Y.note x a.1 n⟩⟩
    else none
  | ⟨.acquire l k, held, n⟩ =>
    if freeb c l then some ⟨c.st, c.tasks.insert t ⟨k, l :: held, n⟩⟩ else none
  | ⟨.release l k, held, n⟩ => some ⟨c.st, c.tasks.insert t ⟨k, held.erase l, n⟩⟩
  | ⟨.stuck, _, _⟩ => none

/-- Make one move, if it can be made. -/
def Move.make : Move C R L S α → Conf C R L S α N → Option (Conf C R L S α N)
  | .start t p, c =>
    match c.tasks.get? t with
    | none => some ⟨c.st, c.tasks.insert t ⟨p, [], Y.blank⟩⟩
    | some _ => none
  | .step t, c => (c.tasks.get? t).bind (advance D c t false)
  | .fail t, c => (c.tasks.get? t).bind (advance D c t true)
  | .crash f, c => (f c.st).map fun s => ⟨s, ∅⟩

/-- Make the moves one after another. -/
def makeAll : List (Move C R L S α) → Conf C R L S α N → Option (Conf C R L S α N)
  | [], c => some c
  | m :: ms, c => (m.make D c).bind (makeAll ms)

/-- Start a program and let it make some moves. -/
def Move.play (t moves : Nat) (p : Prog C R L α) : List (Move C R L S α) :=
  .start t p :: List.replicate moves (.step t)

/-- A move that the setting permits. -/
def Move.Fits (Y : Setting C R L S α N) : Move C R L S α → Prop
  | .start _ p => ∀ s, Y.starts s p
  | .crash f => ∀ s s', f s = some s' → Y.crash s s'
  | _ => True

omit [DecidableEq L] in
lemma Move.play_fits {t moves : Nat} {p : Prog C R L α} (hp : ∀ s, Y.starts s p) :
    ∀ m ∈ Move.play t moves p, m.Fits Y := by
  intro m hm
  rcases List.mem_cons.mp hm with rfl | hm
  · exact hp
  · obtain ⟨-, rfl⟩ := List.mem_replicate.mp hm
    trivial

variable {D} {c c' : Conf C R L S α N}

lemma advance_step {t : Nat} {failing : Bool} {τ : Task C R L α N}
    (ht : c.tasks.get? t = some τ) (h : advance D c t failing τ = some c') : Y.Step c c' := by
  obtain ⟨p, held, n⟩ := τ
  cases p with
  | ret a => exact Option.some.inj h ▸ .finish ht
  | call x k =>
    rw [advance] at h
    split at h
    · rename_i hadm
      split at h
      · obtain ⟨r, hr, rfl⟩ := Option.map_eq_some_iff.mp h
        exact .call ht (D.allows _ _ _ hadm) (D.fails x c.st r hr)
      · exact Option.some.inj h ▸ .call ht (D.allows _ _ _ hadm) (D.answers x c.st)
    · cases h
  | acquire l k =>
    rw [advance] at h
    split at h
    · rename_i hfree
      exact Option.some.inj h ▸ .acquire ht (free_of_freeb hfree)
    · cases h
  | release l k => exact Option.some.inj h ▸ .release ht
  | stuck => cases h

lemma Move.make_step {m : Move C R L S α} (hm : m.Fits Y) (h : m.make D c = some c') :
    Y.Step c c' := by
  cases m with
  | start t p =>
    rw [Move.make] at h
    split at h
    · rename_i hidle
      exact Option.some.inj h ▸ .start hidle (hm _)
    · cases h
  | step t =>
    obtain ⟨τ, ht, ha⟩ := Option.bind_eq_some_iff.mp h
    exact advance_step ht ha
  | fail t =>
    obtain ⟨τ, ht, ha⟩ := Option.bind_eq_some_iff.mp h
    exact advance_step ht ha
  | crash f =>
    obtain ⟨s', hs', rfl⟩ := Option.map_eq_some_iff.mp h
    exact .crash (hm _ _ hs')

lemma makeAll_steps {ms : List (Move C R L S α)} (hms : ∀ m ∈ ms, m.Fits Y)
    (h : makeAll D ms c = some c') : Relation.ReflTransGen Y.Step c c' := by
  induction ms generalizing c with
  | nil => exact Option.some.inj h ▸ .refl
  | cons m ms ih =>
    obtain ⟨c₁, hm, hrest⟩ := Option.bind_eq_some_iff.mp h
    exact .head (Move.make_step (hms m (List.mem_cons_self ..)) hm)
      (ih (fun m' hm' => hms m' (List.mem_cons_of_mem _ hm')) hrest)

lemma Reached.of_moves (D : Driver Y) (ms : List (Move C R L S α)) (s₀ : S)
    (P : Conf C R L S α N → Prop) [DecidablePred P] (hms : ∀ m ∈ ms, m.Fits Y)
    (h : (makeAll D ms ⟨s₀, ∅⟩).any (fun c => P c)) : ∃ c, Y.Reached s₀ c ∧ P c := by
  cases hr : makeAll D ms ⟨s₀, ∅⟩ with
  | none => rw [hr] at h; cases h
  | some c =>
    rw [hr] at h
    exact ⟨c, makeAll_steps hms hr, by simpa using h⟩

end Setting

end Threads
