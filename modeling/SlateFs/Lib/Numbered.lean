import Mathlib.Logic.Function.Basic
import Mathlib.Logic.Relation

/-!
# Tables with an index by number

Values are kept under names, in groups, and each gets a number when it is added:
the next one of its group. A second map leads from the numbers back to the names.
The two maps are kept in step, and a number is given out once.
-/

/-- Groups `P` of names `N` with values `V`. -/
structure Numbered (P N V : Type) where
  /-- The value under a name, with its number. -/
  entry : P → N → Option (V × Nat)
  /-- The name and value with a number. -/
  index : P → Nat → Option (N × V)
  /-- The next number of a group, if there is such a group. -/
  next : P → Option Nat

namespace Numbered

variable {P N V : Type} {first : Nat} {F : P → Prop} {t t' : Numbered P N V} {p : P} {i : Nat}
  {x : N × V}

lemma ext' (he : ∀ p a, t.entry p a = t'.entry p a) (hi : ∀ p i, t.index p i = t'.index p i)
    (hn : ∀ p, t.next p = t'.next p) : t = t' := by
  obtain ⟨e, x, n⟩ := t
  obtain ⟨e', x', n'⟩ := t'
  obtain rfl : e = e' := funext fun p => funext (he p)
  obtain rfl : x = x' := funext fun p => funext (hi p)
  obtain rfl : n = n' := funext hn
  rfl

/-- The two maps say the same, with numbers from `first` on that were given out. -/
structure Ok (first : Nat) (t : Numbered P N V) : Prop where
  indexed : ∀ {p a v i}, t.entry p a = some (v, i) → t.index p i = some (a, v)
  named : ∀ {p a v i}, t.index p i = some (a, v) → t.entry p a = some (v, i)
  issued : ∀ {p i x}, t.index p i = some x → first ≤ i ∧ ∃ m, t.next p = some m ∧ i < m
  start : ∀ {p m}, t.next p = some m → first ≤ m

lemma Ok.unissued (h : t.Ok first) {m : Nat} (hm : t.next p = some m) : t.index p m = none := by
  cases hx : t.index p m with
  | none => rfl
  | some x =>
    obtain ⟨_, m', hm', hlt⟩ := h.issued hx
    rw [hm, Option.some.injEq] at hm'
    omega

variable [DecidableEq P]

/-- A group begins, with its next number, or ends. -/
def setNext (t : Numbered P N V) (p : P) (m : Option Nat) : Numbered P N V :=
  { t with next := Function.update t.next p m }

lemma next_setNext (t : Numbered P N V) (p q : P) (m : Option Nat) :
    (t.setNext p m).next q = if q = p then m else t.next q := Function.update_apply ..

variable [DecidableEq N]

/-- Add a value under a name, with number `m`. -/
def add (t : Numbered P N V) (p : P) (a : N) (v : V) (m : Nat) : Numbered P N V where
  entry q b := if q = p ∧ b = a then some (v, m) else t.entry q b
  index q j := if q = p ∧ j = m then some (a, v) else t.index q j
  next := Function.update t.next p (some (m + 1))

/-- Drop a name and its number. -/
def drop (t : Numbered P N V) (p : P) (a : N) (i : Nat) : Numbered P N V where
  entry q b := if q = p ∧ b = a then none else t.entry q b
  index q j := if q = p ∧ j = i then none else t.index q j
  next := t.next

/-- The changes of a table; a new group is one of `F`. -/
inductive Step (first : Nat) (F : P → Prop) (t : Numbered P N V) : Numbered P N V → Prop where
  | add {p : P} {a : N} {v : V} {m : Nat} (hfree : t.entry p a = none) (hm : t.next p = some m) :
      Step first F t (t.add p a v m)
  | drop {p : P} {a : N} {v : V} {i : Nat} (h : t.entry p a = some (v, i)) :
      Step first F t (t.drop p a i)
  | opened {p : P} {m : Nat} (h : t.next p = none) (hm : first ≤ m) (hF : F p) :
      Step first F t (t.setNext p (some m))
  | closed {p : P} (h : ∀ a, t.entry p a = none) :
      Step first F t (t.setNext p none)

abbrev Steps (first : Nat) (F : P → Prop) : Numbered P N V → Numbered P N V → Prop :=
  Relation.ReflTransGen (Step first F)

/-! ## The maps stay in step -/

lemma Ok.add (h : t.Ok first) {a : N} {v : V} {m : Nat} (hfree : t.entry p a = none)
    (hm : t.next p = some m) : (t.add p a v m).Ok first where
  indexed := by
    intro q b w j hb
    simp only [Numbered.add] at hb ⊢
    split at hb
    · rename_i hq
      obtain ⟨rfl, rfl⟩ := Prod.mk.inj (Option.some.inj hb)
      rw [if_pos ⟨hq.1, rfl⟩, hq.2]
    · rw [if_neg, h.indexed hb]
      rintro ⟨rfl, rfl⟩
      exact absurd (h.indexed hb) (by rw [h.unissued hm]; simp)
  named := by
    intro q b w j hj
    simp only [Numbered.add] at hj ⊢
    split at hj
    · rename_i hq
      obtain ⟨rfl, rfl⟩ := Prod.mk.inj (Option.some.inj hj)
      rw [if_pos ⟨hq.1, rfl⟩, hq.2]
    · rw [if_neg, h.named hj]
      rintro ⟨rfl, rfl⟩
      exact absurd (h.named hj) (by rw [hfree]; simp)
  issued := by
    intro q j y hj
    simp only [Numbered.add, Function.update_apply] at hj ⊢
    split at hj
    · rename_i hq
      rw [if_pos hq.1, hq.2]
      exact ⟨h.start hm, m + 1, rfl, Nat.lt_succ_self m⟩
    · obtain ⟨hle, m', hm', hlt⟩ := h.issued hj
      refine ⟨hle, ?_⟩
      split
      · rename_i hq
        rw [hq, hm, Option.some.injEq] at hm'
        exact ⟨m + 1, rfl, by omega⟩
      · exact ⟨m', hm', hlt⟩
  start := by
    intro q m' hq
    simp only [Numbered.add, Function.update_apply] at hq
    split at hq
    · have := h.start hm
      rw [Option.some.injEq] at hq
      omega
    · exact h.start hq

lemma Ok.drop (h : t.Ok first) {a : N} {v : V} (ha : t.entry p a = some (v, i)) :
    (t.drop p a i).Ok first where
  indexed := by
    intro q b w j hb
    simp only [Numbered.drop] at hb ⊢
    split at hb
    · cases hb
    rename_i hne
    rw [if_neg, h.indexed hb]
    rintro ⟨rfl, rfl⟩
    have := (h.indexed hb).symm.trans (h.indexed ha)
    exact hne ⟨rfl, (Prod.mk.inj (Option.some.inj this)).1⟩
  named := by
    intro q b w j hj
    simp only [Numbered.drop] at hj ⊢
    split at hj
    · cases hj
    rename_i hne
    rw [if_neg, h.named hj]
    rintro ⟨rfl, rfl⟩
    have := (h.named hj).symm.trans ha
    exact hne ⟨rfl, (Prod.mk.inj (Option.some.inj this)).2⟩
  issued := by
    intro q j y hj
    simp only [Numbered.drop] at hj ⊢
    split at hj
    · cases hj
    · exact h.issued hj
  start := h.start

lemma Ok.step (h : t.Ok first) (hs : Step first F t t') : t'.Ok first := by
  cases hs with
  | add hfree hm => exact h.add hfree hm
  | drop ha => exact h.drop ha
  | @opened p m hn hm hF =>
    refine ⟨h.indexed, h.named, fun hx => ?_, fun hq => ?_⟩
    · obtain ⟨hle, m', hm', hlt⟩ := h.issued hx
      refine ⟨hle, m', ?_, hlt⟩
      rw [next_setNext, if_neg, hm']
      rintro rfl
      rw [hn] at hm'; cases hm'
    · rw [next_setNext] at hq
      split at hq
      · exact Option.some.inj hq ▸ hm
      · exact h.start hq
  | @closed p hempty =>
    refine ⟨h.indexed, h.named, fun {q i x} hx => ?_, fun hq => ?_⟩
    · obtain ⟨hle, m', hm', hlt⟩ := h.issued hx
      refine ⟨hle, m', ?_, hlt⟩
      rw [next_setNext, if_neg, hm']
      rintro rfl
      exact absurd (h.named (show t.index q i = some (x.1, x.2) from hx)) (by simp [hempty])
    · rw [next_setNext] at hq
      split at hq
      · cases hq
      · exact h.start hq

/-! ## A number is given out once -/

/-- The number was given out and is free again. -/
def Retired (t : Numbered P N V) (p : P) (i : Nat) : Prop :=
  t.index p i = none ∧ ∀ m, t.next p = some m → i < m

/-- What stood under a number stays, or the number is retired. -/
lemma Ok.index_step (h : t.Ok first) (hs : Step first F t t') (hx : t.index p i = some x) :
    t'.index p i = some x ∨ t'.Retired p i := by
  obtain ⟨_, m, hm, hlt⟩ := h.issued hx
  cases hs with
  | @add q a v m' hfree hm' =>
    left
    simp only [Numbered.add]
    rw [if_neg, hx]
    rintro ⟨rfl, rfl⟩
    rw [h.unissued hm'] at hx; cases hx
  | @drop q a v j ha =>
    by_cases hq : p = q ∧ i = j
    · right
      refine ⟨if_pos hq, fun m' hm' => ?_⟩
      rw [show (t.drop q a j).next p = t.next p from rfl, hm, Option.some.injEq] at hm'
      omega
    · exact .inl ((if_neg hq).trans hx)
  | opened _ _ _ => exact .inl hx
  | closed _ => exact .inl hx

/-- A retired number stays so, unless its group is a new one. -/
lemma Retired.step (h : t.Retired p i) (hs : Step first F t t') (hF : ¬F p) : t'.Retired p i := by
  obtain ⟨hx, hlt⟩ := h
  cases hs with
  | @add q a v m hfree hm =>
    refine ⟨?_, fun m' hm' => ?_⟩
    · simp only [Numbered.add]
      rw [if_neg, hx]
      rintro ⟨rfl, rfl⟩
      exact absurd (hlt _ hm) (Nat.lt_irrefl _)
    · simp only [Numbered.add, Function.update_apply] at hm'
      split at hm'
      · rename_i hq
        have := hlt m (hq ▸ hm)
        rw [Option.some.injEq] at hm'
        omega
      · exact hlt m' hm'
  | @drop q a v j ha =>
    refine ⟨?_, hlt⟩
    simp only [Numbered.drop]
    split
    · rfl
    · exact hx
  | @opened q m hn hm hq =>
    refine ⟨hx, fun m' hm' => ?_⟩
    rw [next_setNext] at hm'
    split at hm'
    · rename_i he
      exact absurd (he ▸ hq) hF
    · exact hlt m' hm'
  | @closed q hempty =>
    refine ⟨hx, fun m' hm' => ?_⟩
    rw [next_setNext] at hm'
    split at hm'
    · cases hm'
    · exact hlt m' hm'

/-! ## Several changes -/

lemma Ok.steps (h : t.Ok first) (hs : Steps first F t t') : t'.Ok first := by
  induction hs with
  | refl => exact h
  | tail _ hs ih => exact ih.step hs

lemma Retired.steps (h : t.Retired p i) (hs : Steps first F t t') (hF : ¬F p) :
    t'.Retired p i := by
  induction hs with
  | refl => exact h
  | tail _ hs ih => exact ih.step hs hF

lemma Ok.index_steps (h : t.Ok first) (hs : Steps first F t t') (hF : ¬F p)
    (hx : t.index p i = some x) : t'.index p i = some x ∨ t'.Retired p i := by
  induction hs with
  | refl => exact .inl hx
  | tail hs hstep ih =>
    rcases ih with hi | hr
    · exact (h.steps hs).index_step hstep hi
    · exact .inr (hr.step hstep hF)

end Numbered
