import SlateFs.Lib.Threads

/-!
# Locks taken in order

Locks have ranks. A program *climbs* if it asks for a lock only above all the locks it
holds. When all programs climb, nobody waits in a circle: along a chain of waiting tasks
the rank of the lock that is waited for goes up.
-/

namespace Prog

variable {C : Type} {R : C → Type} {L α β : Type} [DecidableEq L] {rank : L → Nat}

/-- Every lock is asked for above the locks that are held, whatever calls are answered. `Q`
holds of what is returned and of the locks held then. -/
def Climbs (rank : L → Nat) (Q : α → List L → Prop) : Prog C R L α → List L → Prop
  | ret a, held => Q a held
  | call _ k, held => ∀ r, Climbs rank Q (k r) held
  | acquire l k, held => (∀ m ∈ held, rank m < rank l) ∧ Climbs rank Q k (l :: held)
  | release l k, held => Climbs rank Q k (held.erase l)
  | stuck, _ => True

variable {P : α → List L → Prop} {p : Prog C R L α} {held : List L}

lemma Climbs.bind {Q : β → List L → Prop} {f : α → Prog C R L β} (hp : Climbs rank P p held)
    (hf : ∀ a held', P a held' → Climbs rank Q (f a) held') : Climbs rank Q (p >>= f) held := by
  induction p generalizing held with
  | ret a => exact hf a held hp
  | call c k ih => exact fun r => ih r (hp r)
  | acquire l k ih => exact ⟨hp.1, ih hp.2⟩
  | release l k ih => exact ih hp
  | stuck => trivial

lemma Climbs.mono {Q : α → List L → Prop} (hp : Climbs rank P p held)
    (h : ∀ a held', P a held' → Q a held') :
    Climbs rank Q p held := by
  induction p generalizing held with
  | ret a => exact h a held hp
  | call c k ih => exact fun r => ih r (hp r)
  | acquire l k ih => exact ⟨hp.1, ih hp.2⟩
  | release l k ih => exact ih hp
  | stuck => trivial

end Prog

namespace Threads

variable {C : Type} {R : C → Type} {L S α N : Type}

/-- A task asks for a lock that a task holds. -/
def Conf.Waits (c : Conf C R L S α N) (t u : Nat) : Prop :=
  ∃ l k held n σ, c.tasks.get? t = some ⟨.acquire l k, held, n⟩ ∧ c.tasks.get? u = some σ ∧
    l ∈ σ.held

/-- No lock is held by two tasks. -/
def Conf.Alone (c : Conf C R L S α N) : Prop :=
  ∀ t u τ σ l, c.tasks.get? t = some τ → c.tasks.get? u = some σ → l ∈ τ.held → l ∈ σ.held → t = u

variable [DecidableEq L]

/-- Every task climbs, from the locks it holds. -/
def Conf.Climbing (rank : L → Nat) (c : Conf C R L S α N) : Prop :=
  ∀ t τ, c.tasks.get? t = some τ → Prog.Climbs rank (fun _ _ => True) τ.prog τ.held

section

variable {rank : L → Nat} {c c' : Conf C R L S α N} {t u : Nat}
variable {τ : Task C R L α N}

lemma Conf.Climbing.insert (h : c.Climbing rank) {s' : S}
    (hτ : Prog.Climbs rank (fun _ _ => True) τ.prog τ.held) :
    Conf.Climbing rank ⟨s', c.tasks.insert t τ⟩ := by
  intro u σ hu
  rw [OrdMap.get?_insert] at hu
  split at hu
  · rw [← Option.some.inj hu]
    exact hτ
  · exact h u σ hu

omit [DecidableEq L] in
/-- A task may hold what it held before and what nobody held. -/
lemma Conf.Alone.insert (h : c.Alone) {s' : S}
    (hτ : ∀ l ∈ τ.held, (∃ τ₀, c.tasks.get? t = some τ₀ ∧ l ∈ τ₀.held) ∨ c.Free l) :
    Conf.Alone ⟨s', c.tasks.insert t τ⟩ := by
  -- whoever shares a lock with the new task shared it with the old one
  have hnew : ∀ {u σ l}, c.tasks.get? u = some σ → l ∈ τ.held → l ∈ σ.held → t = u := by
    intro u σ l hu hl hσ
    rcases hτ l hl with ⟨τ₀, ht, hl₀⟩ | hfree
    · exact h t u τ₀ σ l ht hu hl₀ hσ
    · exact absurd hσ (hfree u σ hu)
  intro u w σ ρ l hu hw hσ hρ
  rw [OrdMap.get?_insert] at hu hw
  split at hu <;> split at hw
  · rename_i he he'
    exact he.trans he'.symm
  · rename_i he _
    obtain rfl := Option.some.inj hu
    exact he.trans (hnew hw hσ hρ)
  · rename_i _ he
    obtain rfl := Option.some.inj hw
    exact (hnew hu hρ hσ).symm.trans he.symm
  · exact h u w σ ρ l hu hw hσ hρ

namespace Setting

variable {Y : Setting C R L S α N}

/-- **One move.** -/
theorem Step.climbing (hY : ∀ s p, Y.starts s p → Prog.Climbs rank (fun _ _ => True) p [])
    (hs : Y.Step c c') (h : c.Climbing rank) : c'.Climbing rank := by
  cases hs with
  | start hidle hp => exact h.insert (hY _ _ hp)
  | call ht hallow ha => exact h.insert (h _ _ ht _)
  | acquire ht hfree => exact h.insert (h _ _ ht).2
  | release ht =>
    have hk := h _ _ ht
    exact h.insert hk
  | finish ht =>
    intro u σ hu
    rw [OrdMap.get?_erase] at hu
    split at hu
    · cases hu
    · exact h u σ hu
  | crash h => exact fun _ _ hu => nomatch hu

lemma Step.alone (hs : Y.Step c c') (h : c.Alone) : c'.Alone := by
  cases hs with
  | start hidle hp => exact h.insert nofun
  | call ht hallow ha => exact h.insert fun l hl => .inl ⟨_, ht, hl⟩
  | acquire ht hfree =>
    refine h.insert fun l hl => ?_
    rcases List.mem_cons.mp hl with rfl | hl
    · exact .inr hfree
    · exact .inl ⟨_, ht, hl⟩
  | release ht => exact h.insert fun l hl => .inl ⟨_, ht, List.mem_of_mem_erase hl⟩
  | finish ht =>
    intro u w σ ρ l hu hw
    rw [OrdMap.get?_erase] at hu hw
    split at hu
    · cases hu
    split at hw
    · cases hw
    · exact h u w σ ρ l hu hw
  | crash h => exact fun _ _ _ _ _ hu => nomatch hu

/-- **A run.** -/
theorem Reached.climbing (hY : ∀ s p, Y.starts s p → Prog.Climbs rank (fun _ _ => True) p [])
    {s₀ : S} (hr : Y.Reached s₀ c) : c.Climbing rank := by
  induction hr with
  | refl => exact fun _ _ hu => nomatch hu
  | tail _ hs ih => exact hs.climbing hY ih

lemma Reached.alone {s₀ : S} (hr : Y.Reached s₀ c) : c.Alone := by
  induction hr with
  | refl => exact fun _ _ _ _ _ hu => nomatch hu
  | tail _ hs ih => exact hs.alone ih

end Setting

/-- Along a chain of waiting tasks the rank of what they wait for goes up. -/
lemma Conf.Climbing.rank_lt (h : c.Climbing rank) (hw : Relation.TransGen c.Waits t u)
    {l l' : L} {k k' : Prog C R L α} {held held' : List L} {n n' : N}
    (ht : c.tasks.get? t = some ⟨.acquire l k, held, n⟩)
    (hu : c.tasks.get? u = some ⟨.acquire l' k', held', n'⟩) : rank l < rank l' := by
  induction hw generalizing l' k' held' n' with
  | single hw =>
    obtain ⟨m, _, _, _, σ, ht', hu', hm⟩ := hw
    rw [ht] at ht'
    rw [hu] at hu'
    cases ht'
    cases hu'
    exact (h _ _ hu).1 l hm
  | tail _ hw ih =>
    obtain ⟨m, _, _, _, σ, ht', hu', hm⟩ := hw
    have hlt : rank m < rank l' := by
      rw [hu] at hu'
      cases hu'
      exact (h _ _ hu).1 m hm
    exact (ih ht').trans hlt

/-- **Nobody waits in a circle.** -/
theorem Conf.Climbing.no_circle (h : c.Climbing rank) : ¬Relation.TransGen c.Waits t t := by
  intro hw
  have hfirst : ∃ u, c.Waits t u := by
    rcases Relation.TransGen.head'_iff.mp hw with ⟨u, hu, -⟩
    exact ⟨u, hu⟩
  obtain ⟨u, l, k, held, n, σ, ht, -⟩ := hfirst
  exact Nat.lt_irrefl _ (h.rank_lt hw ht ht)

end

end Threads
